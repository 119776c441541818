/-
The capacity of a pool that many threads use.

`getConnection` is three steps: the section under the lock, which takes an idle
connection or reserves a slot, the deletion of the unfit connections it took out, and
the attempt to connect in a reserved slot.  The calls are a list, each with where it is
and what it holds; leases end in any order, and the pool may be destroyed when no call
of `getConnection` is in progress.  Connections are numbered in the order in which they
are made.  `total_` is a `u32`.

* `popIdle_eq` — the loop over the idle connections takes them from the front;
* `Step`, `step_cases` — everything that a step can do;
* `Counted` — `total_` counts the connections that are not deleted, the unfit ones and
  the reserved slots included, and each connection is in one place;
* `safe_of_exact` — as long as no reservation wraps `total_`, which takes a `max_size_`
  of more than half of the `u32` values, the pool keeps its capacity.
-/
import Droplet.Http.Pool
import Droplet.Lib.Tally

open Tally Transition Transition.System

namespace Http

/-- Where a call of `getConnection` and its lease are. -/
inductive PoolCall
  | deleting (invalid : List ℕ) (found : Option ℕ) (reserved : Bool)
  | connecting
  | leased (id : ℕ)
  | ended
  deriving DecidableEq

namespace PoolCall

/-- The connections that the caller has, or is about to get. -/
def held : PoolCall → List ℕ
  | .deleting _ found _ => found.toList
  | .leased id => [id]
  | _ => []

/-- The unfit connections that the call has taken out. -/
def doomed : PoolCall → List ℕ
  | .deleting invalid _ _ => invalid
  | _ => []

/-- The slots that are reserved for the call. -/
def slots : PoolCall → ℕ
  | .deleting _ none true | .connecting => 1
  | _ => 0

/-- The live connections of the call. -/
def live (call : PoolCall) : ℕ := call.held.length + call.slots

/-- What `total_` counts for the call. -/
def counted (call : PoolCall) : ℕ := call.doomed.length + call.live

/-- `getConnection` has not returned. -/
def inProgress : PoolCall → Bool
  | .deleting _ _ _ | .connecting => true
  | _ => false

/-- How often the call has the connection. -/
def has (id : ℕ) (call : PoolCall) : ℕ := call.doomed.count id + call.held.count id

theorem slots_unreserved (invalid : List ℕ) (found : Option ℕ) :
    (deleting invalid found false).slots = 0 := by
  cases found with
  | none => rfl
  | some id => rfl

end PoolCall

/-- The loop over the idle connections: the one to reuse, the unfit ones before it, and
the ones after it. -/
def popIdle (isUnfit : ℕ → Bool) : List ℕ → Option ℕ × List ℕ × List ℕ
  | [] => (none, [], [])
  | id :: ids =>
    if isUnfit id then
      let r := popIdle isUnfit ids
      (r.1, id :: r.2.1, r.2.2)
    else (some id, [], ids)

/-- A pool and the calls that were made. -/
structure SharedPool where
  options : PoolOptions
  idleConnections : List ℕ
  total : UInt32
  connections : ℕ → HttpConnection
  created : ℕ
  calls : List PoolCall
  alive : Bool

/-- The steps. -/
inductive SharedPoolAction
  | getConnection (now : UInt64)
  | deleteInvalid (i : ℕ)
  | connect (i : ℕ) (createdAtMs : Option UInt64)
  | use (i : ℕ) (connection : HttpConnection)
  | releaseConnection (i : ℕ) (now : UInt64) (pushed : Bool)
  | destroy

namespace SharedPool

/-- A pool without connections. -/
def new (options : PoolOptions) : SharedPool :=
  ⟨options, [], 0, fun _ => HttpConnection.new 0, 0, [], true⟩

def isUnfit (s : SharedPool) (now : UInt64) (id : ℕ) : Bool :=
  HttpConnectionPool.isUnfit s.options (s.connections id) now

/-- What the loop under the lock takes out. -/
def popped (s : SharedPool) (now : UInt64) : Option ℕ × List ℕ × List ℕ :=
  popIdle (s.isUnfit now) s.idleConnections

/-- `after_invalid`. -/
def afterInvalid (s : SharedPool) (now : UInt64) : UInt32 :=
  s.total - UInt32.ofNat (s.popped now).2.1.length

/-- The section under the lock reserves a slot. -/
def reserves (s : SharedPool) (now : UInt64) : Bool :=
  (s.popped now).1.isNone && decide (s.afterInvalid now < s.options.maxSize)

/-- The section under the lock. -/
def lockedPop (s : SharedPool) (now : UInt64) : SharedPool :=
  { s with
    idleConnections := (s.popped now).2.2
    total := if s.reserves now then s.total + 1 else s.total
    calls := s.calls ++ [.deleting (s.popped now).2.1 (s.popped now).1 (s.reserves now)] }

/-- `getConnection` up to the end of that section. -/
def getConnection (s : SharedPool) (now : UInt64) : SharedPool :=
  if s.options.isHttps || s.options.maxSize == 0 then s else s.lockedPop now

/-- Where a call goes on after the deletion. -/
def afterDelete (found : Option ℕ) (reserved : Bool) : PoolCall :=
  match found with
  | some id => .leased id
  | none => if reserved then .connecting else .ended

/-- The deletion of the unfit connections, and the subtraction. -/
def deleteInvalid (s : SharedPool) (i : ℕ) (invalid : List ℕ) (found : Option ℕ)
    (reserved : Bool) : SharedPool :=
  { s with
    total := s.total - UInt32.ofNat invalid.length
    calls := s.calls.set i (afterDelete found reserved) }

/-- A connection in a reserved slot. -/
def connected (s : SharedPool) (i : ℕ) (createdAtMs : UInt64) : SharedPool :=
  { s with
    connections := Function.update s.connections s.created (HttpConnection.new createdAtMs.toNat)
    created := s.created + 1
    calls := s.calls.set i (.leased s.created) }

/-- The call ends without a connection, or the connection is deleted. -/
def drop (s : SharedPool) (i : ℕ) : SharedPool :=
  { s with total := s.total - 1, calls := s.calls.set i .ended }

/-- The connection goes back into the pool. -/
def park (s : SharedPool) (i id : ℕ) : SharedPool :=
  { s with idleConnections := s.idleConnections ++ [id], calls := s.calls.set i .ended }

/-- The connection is deleted behind the pool. -/
def orphan (s : SharedPool) (i : ℕ) : SharedPool := { s with calls := s.calls.set i .ended }

/-- The caller uses its connection. -/
def use (s : SharedPool) (id : ℕ) (connection : HttpConnection) : SharedPool :=
  { s with connections := Function.update s.connections id connection }

/-- The end of a lease: `releaseConnection` if there is still a pool, and otherwise the
deletion of the connection; `pushed` says whether `push_back` succeeds. -/
def releaseConnection (s : SharedPool) (i id : ℕ) (now : UInt64) (pushed : Bool) : SharedPool :=
  if s.alive then
    if s.isUnfit now id then s.drop i
    else if pushed then s.park i id
    else s.drop i
  else s.orphan i

/-- The destructor. -/
def destroy (s : SharedPool) : SharedPool :=
  { s with
    idleConnections := []
    total := s.total - UInt32.ofNat s.idleConnections.length
    alive := false }

def step (s : SharedPool) : SharedPoolAction → Option SharedPool
  | .getConnection now => if s.alive then some (s.getConnection now) else none
  | .deleteInvalid i =>
    match s.calls[i]? with
    | some (.deleting invalid found reserved) => some (s.deleteInvalid i invalid found reserved)
    | _ => none
  | .connect i createdAtMs =>
    match s.calls[i]? with
    | some .connecting =>
      match createdAtMs with
      | some createdAtMs => some (s.connected i createdAtMs)
      | none => some (s.drop i)
    | _ => none
  | .use i connection =>
    match s.calls[i]? with
    | some (.leased id) => some (s.use id connection)
    | _ => none
  | .releaseConnection i now pushed =>
    match s.calls[i]? with
    | some (.leased id) => some (s.releaseConnection i id now pushed)
    | _ => none
  | .destroy =>
    if s.alive && !s.calls.any PoolCall.inProgress then some s.destroy else none

/-- All interleavings. -/
def system (options : PoolOptions) : System SharedPool SharedPoolAction where
  init s := s = new options
  step := step

/-- A reservation does not wrap `total_`. -/
def Exact (s : SharedPool) : SharedPoolAction → Prop
  | .getConnection now => s.reserves now = true → s.total.toNat + 1 < 2 ^ 32
  | _ => True

/-- The live connections: idle, leased, or being made in a reserved slot. -/
def liveCount (s : SharedPool) : ℕ := s.idleConnections.length + tally PoolCall.live s.calls

/-- The call has the connection. -/
def Holds (s : SharedPool) (i id : ℕ) : Prop := ∃ call, s.calls[i]? = some call ∧ id ∈ call.held

/-- The loop takes the connections from the front, all of them if none is fit. -/
theorem popIdle_eq (isUnfit : ℕ → Bool) (ids : List ℕ) :
    ids = (popIdle isUnfit ids).2.1 ++ (popIdle isUnfit ids).1.toList ++
        (popIdle isUnfit ids).2.2 ∧
      ((popIdle isUnfit ids).1 = none → (popIdle isUnfit ids).2.2 = []) := by
  induction ids with
  | nil => exact ⟨rfl, fun _ => rfl⟩
  | cons id ids ih =>
    unfold popIdle
    by_cases hunfit : isUnfit id = true
    · rw [if_pos hunfit]
      exact ⟨congrArg (id :: ·) ih.1, ih.2⟩
    · rw [if_neg hunfit]
      exact ⟨rfl, fun hnone => absurd hnone (by simp)⟩

/-- Everything that a step can do. -/
inductive Step (s : SharedPool) : SharedPoolAction → SharedPool → Prop
  | refuse {now : UInt64} (halive : s.alive = true) : Step s (.getConnection now) s
  | pop {now : UInt64} (halive : s.alive = true) : Step s (.getConnection now) (s.lockedPop now)
  | delete {i : ℕ} {invalid : List ℕ} {found : Option ℕ} {reserved : Bool}
      (hcall : s.calls[i]? = some (.deleting invalid found reserved)) :
      Step s (.deleteInvalid i) (s.deleteInvalid i invalid found reserved)
  | connected {i : ℕ} {createdAtMs : UInt64} (hcall : s.calls[i]? = some .connecting) :
      Step s (.connect i (some createdAtMs)) (s.connected i createdAtMs)
  | failed {i : ℕ} (hcall : s.calls[i]? = some .connecting) : Step s (.connect i none) (s.drop i)
  | use {i id : ℕ} {connection : HttpConnection} (hcall : s.calls[i]? = some (.leased id)) :
      Step s (.use i connection) (s.use id connection)
  | dropped {i id : ℕ} {now : UInt64} {pushed : Bool} (hcall : s.calls[i]? = some (.leased id)) :
      Step s (.releaseConnection i now pushed) (s.drop i)
  | parked {i id : ℕ} {now : UInt64} {pushed : Bool} (hcall : s.calls[i]? = some (.leased id)) :
      Step s (.releaseConnection i now pushed) (s.park i id)
  | orphaned {i id : ℕ} {now : UInt64} {pushed : Bool} (hcall : s.calls[i]? = some (.leased id))
      (halive : s.alive = false) : Step s (.releaseConnection i now pushed) (s.orphan i)
  | destroyed (halive : s.alive = true) (hnone : s.calls.any PoolCall.inProgress = false) :
      Step s .destroy s.destroy

theorem step_cases {s s' : SharedPool} {a : SharedPoolAction} (h : s.step a = some s') :
    Step s a s' := by
  cases a with
  | getConnection now =>
    rw [step] at h
    split at h
    · next halive =>
      obtain rfl := Option.some_inj.mp h
      unfold getConnection
      split
      · exact .refuse halive
      · exact .pop halive
    · exact absurd h (by simp)
  | deleteInvalid i =>
    rw [step] at h
    split at h
    · next hcall => exact Option.some_inj.mp h ▸ .delete hcall
    · exact absurd h (by simp)
  | connect i createdAtMs =>
    cases createdAtMs with
    | none =>
      rw [step] at h
      split at h
      · next hcall => exact Option.some_inj.mp h ▸ .failed hcall
      · exact absurd h (by simp)
    | some createdAtMs =>
      rw [step] at h
      split at h
      · next hcall => exact Option.some_inj.mp h ▸ .connected hcall
      · exact absurd h (by simp)
  | use i connection =>
    rw [step] at h
    split at h
    · next hcall => exact Option.some_inj.mp h ▸ .use hcall
    · exact absurd h (by simp)
  | releaseConnection i now pushed =>
    rw [step] at h
    split at h
    · next hcall =>
      obtain rfl := Option.some_inj.mp h
      unfold releaseConnection
      split
      · split
        · exact .dropped hcall
        · split
          · exact .parked hcall
          · exact .dropped hcall
      · next halive => exact .orphaned hcall (Bool.eq_false_of_not_eq_true halive)
    · exact absurd h (by simp)
  | destroy =>
    rw [step] at h
    split at h
    · next hguard =>
      rw [Bool.and_eq_true, Bool.not_eq_true'] at hguard
      exact Option.some_inj.mp h ▸ .destroyed hguard.1 hguard.2
    · exact absurd h (by simp)

/-! ### The invariant -/

/-- A subtraction that does not wrap. -/
theorem toNat_sub_ofNat {a : UInt32} {k : ℕ} (h : k ≤ a.toNat) :
    (a - UInt32.ofNat k).toNat = a.toNat - k := by
  have hk : (UInt32.ofNat k).toNat = k := Nat.mod_eq_of_lt (Nat.lt_of_le_of_lt h a.toNat_lt)
  rw [UInt32.toNat_sub_of_le, hk]
  rw [UInt32.le_iff_toNat_le, hk]
  exact h

/-- How often a connection is somewhere. -/
def places (s : SharedPool) (id : ℕ) : ℕ :=
  s.idleConnections.count id + tally (PoolCall.has id) s.calls

/-- `total_` counts what is not deleted yet, and a connection is in one place. -/
structure Counted (s : SharedPool) : Prop where
  total : s.alive = true →
    s.total.toNat = s.idleConnections.length + tally PoolCall.counted s.calls
  bounded : s.liveCount ≤ s.options.maxSize.toNat
  placed : ∀ id, s.places id ≤ if id < s.created then 1 else 0

theorem popped_eq (s : SharedPool) (now : UInt64) :
    s.idleConnections = (s.popped now).2.1 ++ (s.popped now).1.toList ++ (s.popped now).2.2 ∧
      ((s.popped now).1 = none → (s.popped now).2.2 = []) :=
  popIdle_eq (s.isUnfit now) s.idleConnections

theorem length_popped (s : SharedPool) (now : UInt64) :
    s.idleConnections.length =
      (s.popped now).2.1.length + (s.popped now).1.toList.length + (s.popped now).2.2.length := by
  have hlength := congrArg List.length (s.popped_eq now).1
  rwa [List.length_append, List.length_append] at hlength

theorem reserves_none {s : SharedPool} {now : UInt64} (h : s.reserves now = true) :
    (s.popped now).1 = none := by
  rw [reserves, Bool.and_eq_true, Option.isNone_iff_eq_none] at h
  exact h.1

namespace Counted

variable {s : SharedPool} {i id : ℕ}

theorem new (options : PoolOptions) : (SharedPool.new options).Counted :=
  ⟨fun _ => rfl, Nat.zero_le _, fun _ => Nat.zero_le _⟩

/-- No more can be taken out than is counted. -/
theorem popped_le (h : s.Counted) (halive : s.alive = true) (now : UInt64) :
    (s.popped now).2.1.length ≤ s.total.toNat := by
  have hlength := s.length_popped now
  have htotal := h.total halive
  omega

/-- A slot is reserved where the calls leave room for it. -/
theorem room (h : s.Counted) (halive : s.alive = true) {now : UInt64}
    (hreserves : s.reserves now = true) :
    tally PoolCall.counted s.calls < s.options.maxSize.toNat := by
  have hnone := reserves_none hreserves
  rw [reserves, Bool.and_eq_true, decide_eq_true_eq] at hreserves
  have hlt := hreserves.2
  rw [UInt32.lt_iff_toNat_lt, afterInvalid, toNat_sub_ofNat (h.popped_le halive now),
    h.total halive] at hlt
  have hlength := s.length_popped now
  rw [hnone, (s.popped_eq now).2 hnone, Option.toList_none, List.length_nil] at hlength
  omega

/-- Live connections are counted. -/
theorem live_le (calls : List PoolCall) :
    tally PoolCall.live calls ≤ tally PoolCall.counted calls :=
  tally_mono fun _ _ => Nat.le_add_left _ _

/-- The section under the lock. -/
theorem lockedPop (h : s.Counted) (halive : s.alive = true) {now : UInt64}
    (hexact : s.reserves now = true → s.total.toNat + 1 < 2 ^ 32) : (s.lockedPop now).Counted := by
  have hlength := s.length_popped now
  have htotal := h.total halive
  have hbounded := h.bounded
  unfold liveCount at hbounded
  refine ⟨fun _ => ?_, ?_, fun id => ?_⟩
  · show (if s.reserves now then s.total + 1 else s.total).toNat =
      (s.popped now).2.2.length + tally PoolCall.counted (s.calls ++ [_])
    rw [tally_concat]
    cases hreserves : s.reserves now with
    | true =>
      have hadd : (s.total + 1).toNat = s.total.toNat + 1 := by
        rw [UInt32.toNat_add]
        exact Nat.mod_eq_of_lt (hexact hreserves)
      rw [reserves_none hreserves] at hlength ⊢
      show (s.total + 1).toNat = _ + (_ + ((s.popped now).2.1.length + (0 + 1)))
      rw [Option.toList_none, List.length_nil] at hlength
      omega
    | false =>
      show s.total.toNat = _ + (_ + ((s.popped now).2.1.length +
        ((s.popped now).1.toList.length + PoolCall.slots _)))
      rw [PoolCall.slots_unreserved]
      omega
  · show (s.popped now).2.2.length + tally PoolCall.live (s.calls ++ [_]) ≤
      s.options.maxSize.toNat
    rw [tally_concat]
    cases hreserves : s.reserves now with
    | true =>
      have hroom := h.room halive hreserves
      have hlive := live_le s.calls
      have hnone := reserves_none hreserves
      rw [(s.popped_eq now).2 hnone, hnone]
      show 0 + (_ + (0 + 1)) ≤ _
      omega
    | false =>
      show _ + (_ + ((s.popped now).1.toList.length + PoolCall.slots _)) ≤ _
      rw [PoolCall.slots_unreserved]
      omega
  · have hplaced := h.placed id
    have hcount := congrArg (List.count id) (s.popped_eq now).1
    rw [List.count_append, List.count_append] at hcount
    unfold places at hplaced
    show (s.popped now).2.2.count id + tally (PoolCall.has id) (s.calls ++ [_]) ≤ _
    rw [tally_concat]
    show _ + (_ + ((s.popped now).2.1.count id + (s.popped now).1.toList.count id)) ≤
      if id < s.created then 1 else 0
    omega

/-- The call that goes on after the deletion. -/
theorem afterDelete_eq (invalid : List ℕ) (found : Option ℕ) (reserved : Bool) :
    (afterDelete found reserved).live = (PoolCall.deleting invalid found reserved).live ∧
      (afterDelete found reserved).doomed = [] ∧
      (afterDelete found reserved).held = found.toList := by
  cases found with
  | some id => exact ⟨rfl, rfl, rfl⟩
  | none =>
    cases reserved with
    | true => exact ⟨rfl, rfl, rfl⟩
    | false => exact ⟨rfl, rfl, rfl⟩

/-- The deletion. -/
theorem deleteInvalid (h : s.Counted) {invalid : List ℕ} {found : Option ℕ} {reserved : Bool}
    (hcall : s.calls[i]? = some (.deleting invalid found reserved)) :
    (s.deleteInvalid i invalid found reserved).Counted := by
  obtain ⟨hlive, hdoomed, hheld⟩ := afterDelete_eq invalid found reserved
  refine ⟨fun halive => ?_, ?_, fun id => ?_⟩
  · have htotal := h.total halive
    have hset := tally_set (f := PoolCall.counted) hcall (afterDelete found reserved)
    have hbefore : (PoolCall.deleting invalid found reserved).counted =
        invalid.length + (PoolCall.deleting invalid found reserved).live := rfl
    have hafter : (afterDelete found reserved).counted =
        (PoolCall.deleting invalid found reserved).live := by
      rw [PoolCall.counted, hdoomed, hlive, List.length_nil, Nat.zero_add]
    show (s.total - UInt32.ofNat invalid.length).toNat = s.idleConnections.length +
      tally PoolCall.counted (s.calls.set i (afterDelete found reserved))
    have hle : invalid.length ≤ s.total.toNat := by
      have hone := le_tally (f := PoolCall.counted) hcall
      omega
    rw [toNat_sub_ofNat hle]
    omega
  · have hbounded := h.bounded
    have hset := tally_set (f := PoolCall.live) hcall (afterDelete found reserved)
    unfold liveCount at hbounded
    show s.idleConnections.length +
      tally PoolCall.live (s.calls.set i (afterDelete found reserved)) ≤ s.options.maxSize.toNat
    omega
  · have hplaced := h.placed id
    have hset := tally_set (f := PoolCall.has id) hcall (afterDelete found reserved)
    have hhas : (afterDelete found reserved).has id ≤
        (PoolCall.deleting invalid found reserved).has id := by
      rw [PoolCall.has, hdoomed, hheld, List.count_nil, Nat.zero_add]
      exact Nat.le_add_left _ _
    unfold places at hplaced
    show s.idleConnections.count id +
      tally (PoolCall.has id) (s.calls.set i (afterDelete found reserved)) ≤
        if id < s.created then 1 else 0
    omega

/-- A connection is made. -/
theorem connected (h : s.Counted) (hcall : s.calls[i]? = some .connecting)
    (createdAtMs : UInt64) : (s.connected i createdAtMs).Counted := by
  refine ⟨fun halive => ?_, ?_, fun id => ?_⟩
  · have htotal := h.total halive
    have hset := tally_set (f := PoolCall.counted) hcall (.leased s.created)
    show s.total.toNat = s.idleConnections.length +
      tally PoolCall.counted (s.calls.set i (.leased s.created))
    have hsame : (PoolCall.leased s.created).counted = PoolCall.connecting.counted := rfl
    omega
  · have hbounded := h.bounded
    have hset := tally_set (f := PoolCall.live) hcall (.leased s.created)
    have hsame : (PoolCall.leased s.created).live = PoolCall.connecting.live := rfl
    unfold liveCount at hbounded
    show s.idleConnections.length + tally PoolCall.live (s.calls.set i (.leased s.created)) ≤
      s.options.maxSize.toNat
    omega
  · have hplaced := h.placed id
    have hset := tally_set (f := PoolCall.has id) hcall (.leased s.created)
    have hbefore : PoolCall.connecting.has id = 0 := rfl
    have hafter : (PoolCall.leased s.created).has id = if s.created = id then 1 else 0 := by
      show 0 + [s.created].count id = _
      rw [Nat.zero_add, List.count_singleton]
      exact if_congr beq_iff_eq rfl rfl
    unfold places at hplaced
    show s.idleConnections.count id + tally (PoolCall.has id) (s.calls.set i (.leased s.created)) ≤
      if id < s.created + 1 then 1 else 0
    split at hplaced <;> split at hafter <;> split <;> omega

/-- A call ends. -/
theorem bounded_ended (h : s.Counted) {call : PoolCall} (hcall : s.calls[i]? = some call) :
    s.idleConnections.length + tally PoolCall.live (s.calls.set i .ended) + call.live ≤
      s.options.maxSize.toNat := by
  have hbounded := h.bounded
  have hset := tally_set (f := PoolCall.live) hcall .ended
  have hended : PoolCall.ended.live = 0 := rfl
  unfold liveCount at hbounded
  omega

theorem placed_ended (h : s.Counted) {call : PoolCall} (hcall : s.calls[i]? = some call)
    (id : ℕ) : s.idleConnections.count id + tally (PoolCall.has id) (s.calls.set i .ended) +
      call.has id ≤ if id < s.created then 1 else 0 := by
  have hplaced := h.placed id
  have hset := tally_set (f := PoolCall.has id) hcall .ended
  have hended : PoolCall.ended.has id = 0 := rfl
  unfold places at hplaced
  omega

/-- A call that counts for one ends. -/
theorem drop (h : s.Counted) {call : PoolCall} (hcall : s.calls[i]? = some call)
    (hone : call.counted = 1) : (s.drop i).Counted := by
  refine ⟨fun halive => ?_, ?_, fun id => ?_⟩
  · have htotal := h.total halive
    have hset := tally_set (f := PoolCall.counted) hcall .ended
    have hended : PoolCall.ended.counted = 0 := rfl
    have hle : 1 ≤ s.total.toNat := by
      have hcounted := le_tally (f := PoolCall.counted) hcall
      omega
    show (s.total - UInt32.ofNat 1).toNat = s.idleConnections.length +
      tally PoolCall.counted (s.calls.set i .ended)
    rw [toNat_sub_ofNat hle]
    omega
  · exact Nat.le_trans (Nat.le_add_right _ _) (h.bounded_ended hcall)
  · exact Nat.le_trans (Nat.le_add_right _ _) (h.placed_ended hcall id)

/-- A connection goes back. -/
theorem park (h : s.Counted) (hcall : s.calls[i]? = some (.leased id)) : (s.park i id).Counted := by
  have hlength : (s.idleConnections ++ [id]).length = s.idleConnections.length + 1 := by
    rw [List.length_append, List.length_singleton]
  refine ⟨fun halive => ?_, ?_, fun other => ?_⟩
  · have htotal := h.total halive
    have hset := tally_set (f := PoolCall.counted) hcall .ended
    have hended : PoolCall.ended.counted = 0 := rfl
    have hone : (PoolCall.leased id).counted = 1 := rfl
    show s.total.toNat = (s.idleConnections ++ [id]).length +
      tally PoolCall.counted (s.calls.set i .ended)
    omega
  · have hbounded := h.bounded_ended hcall
    have hone : (PoolCall.leased id).live = 1 := rfl
    show (s.idleConnections ++ [id]).length + tally PoolCall.live (s.calls.set i .ended) ≤
      s.options.maxSize.toNat
    rw [hlength]
    omega
  · have hplaced := h.placed_ended hcall other
    have hone : (PoolCall.leased id).has other = [id].count other := Nat.zero_add _
    show (s.idleConnections ++ [id]).count other +
      tally (PoolCall.has other) (s.calls.set i .ended) ≤ if other < s.created then 1 else 0
    rw [List.count_append]
    omega

/-- A connection is deleted behind the pool. -/
theorem orphan (h : s.Counted) {call : PoolCall} (hcall : s.calls[i]? = some call)
    (halive : s.alive = false) : (s.orphan i).Counted := by
  refine ⟨fun halive' => ?_, ?_, fun id => ?_⟩
  · exact absurd (halive'.symm.trans halive) (by simp)
  · exact Nat.le_trans (Nat.le_add_right _ _) (h.bounded_ended hcall)
  · exact Nat.le_trans (Nat.le_add_right _ _) (h.placed_ended hcall id)

theorem destroy (h : s.Counted) : s.destroy.Counted := by
  have hbounded := h.bounded
  unfold liveCount at hbounded
  refine ⟨fun halive => absurd halive (by simp [SharedPool.destroy]), ?_, fun id => ?_⟩
  · show 0 + tally PoolCall.live s.calls ≤ _
    exact Nat.le_trans (by omega) hbounded
  · have hplaced := h.placed id
    unfold places at hplaced
    show 0 + tally (PoolCall.has id) s.calls ≤ if id < s.created then 1 else 0
    omega

/-- **Every step** that does not wrap `total_` keeps the count. -/
theorem step (h : s.Counted) {s' : SharedPool} {a : SharedPoolAction} (hstep : s.step a = some s')
    (hexact : s.Exact a) : s'.Counted := by
  obtain _ | halive | hcall | hcall | hcall | hcall | hcall | hcall | ⟨hcall, halive⟩ | _ :=
    step_cases hstep
  · exact h
  · exact h.lockedPop halive hexact
  · exact h.deleteInvalid hcall
  · exact h.connected hcall _
  · exact h.drop hcall rfl
  · exact ⟨h.total, h.bounded, h.placed⟩
  · exact h.drop hcall rfl
  · exact h.park hcall
  · exact h.orphan hcall halive
  · exact h.destroy

end Counted

theorem options_step {s s' : SharedPool} {a : SharedPoolAction} (h : s.step a = some s') :
    s'.options = s.options := by
  obtain _ | _ | _ | _ | _ | _ | _ | _ | _ | _ := step_cases h <;> rfl

/-- The options of the runs below: connections live for a millisecond. -/
def shortLived (maxSize : UInt32) : PoolOptions := ⟨[], [], 80, false, maxSize, 1, 0⟩

section wide

variable {s : SharedPool} {n : ℕ}

/-- The largest `max_size_`. -/
def wideOptions : PoolOptions := shortLived 0xffffffff

theorem step_getConnection (halive : s.alive = true) (hoptions : s.options = wideOptions)
    (now : UInt64) : s.step (.getConnection now) = some (s.lockedPop now) := by
  rw [step, if_pos halive, getConnection, hoptions, if_neg (by decide)]

/-- Without idle connections a slot is reserved as long as `total_` is not the largest
`u32`. -/
theorem reserves_of_empty (hoptions : s.options = wideOptions) (hidle : s.idleConnections = [])
    (hlt : s.total.toNat < 2 ^ 32 - 1) (now : UInt64) :
    s.popped now = (none, [], []) ∧ s.reserves now = true := by
  have hpopped : s.popped now = (none, [], []) := by
    rw [popped, hidle, popIdle]
  refine ⟨hpopped, ?_⟩
  rw [reserves, afterInvalid, hpopped, hoptions, Bool.and_eq_true, decide_eq_true_eq,
    UInt32.lt_iff_toNat_lt, List.length_nil, toNat_sub_ofNat (Nat.zero_le _)]
  exact ⟨rfl, hlt⟩

/-- So many calls have got a new connection, and none has given it back. -/
structure Leased (n : ℕ) (s : SharedPool) : Prop where
  options : s.options = wideOptions
  idle : s.idleConnections = []
  alive : s.alive = true
  total : s.total.toNat = n
  length : s.calls.length = n
  live : tally PoolCall.live s.calls = n
  first : 0 < n → s.calls[0]? = some (.leased 0)
  created : s.created = n
  fresh : s.connections = fun _ => HttpConnection.new 0

/-- One connection more. -/
theorem Leased.succ (h : Leased n s) (hlt : n < 2 ^ 32 - 1) :
    ∃ s', (system wideOptions).exec s
      [.getConnection 0, .deleteInvalid n, .connect n (some 0)] = some s' ∧ Leased (n + 1) s' := by
  obtain ⟨hpopped, hreserves⟩ := reserves_of_empty h.options h.idle (h.total.symm ▸ hlt) 0
  have hset : ∀ call call' : PoolCall, (s.calls ++ [call]).set n call' = s.calls ++ [call'] := by
    intro call call'
    rw [List.set_append_right _ _ (Nat.le_of_eq h.length), h.length, Nat.sub_self, List.set_cons_zero]
  have hget : ∀ call : PoolCall, (s.calls ++ [call])[n]? = some call := by
    intro call
    rw [List.getElem?_append_right (Nat.le_of_eq h.length), h.length, Nat.sub_self]
    rfl
  -- the three steps
  obtain ⟨s₁, hs₁⟩ : ∃ s₁, s₁ = s.lockedPop 0 := ⟨_, rfl⟩
  have hstep₁ : (system wideOptions).step s (.getConnection 0) = some s₁ :=
    hs₁ ▸ step_getConnection h.alive h.options 0
  have hcalls₁ : s₁.calls = s.calls ++ [.deleting [] none true] := by
    rw [hs₁, lockedPop, hpopped, hreserves]
  have htotal₁ : s₁.total.toNat = n + 1 := by
    rw [hs₁, lockedPop, hreserves, if_pos rfl, UInt32.toNat_add, h.total]
    show (n + 1) % 2 ^ 32 = n + 1
    exact Nat.mod_eq_of_lt (by omega)
  obtain ⟨s₂, hs₂⟩ : ∃ s₂, s₂ = s₁.deleteInvalid n [] none true := ⟨_, rfl⟩
  have hstep₂ : (system wideOptions).step s₁ (.deleteInvalid n) = some s₂ := by
    show s₁.step (.deleteInvalid n) = some s₂
    rw [step, hcalls₁, hget, hs₂]
  have hcalls₂ : s₂.calls = s.calls ++ [.connecting] := by
    rw [hs₂, deleteInvalid, hcalls₁, hset]
    rfl
  have htotal₂ : s₂.total.toNat = n + 1 := by
    rw [hs₂, deleteInvalid, List.length_nil, toNat_sub_ofNat (Nat.zero_le _), htotal₁, Nat.sub_zero]
  have hstep₃ : (system wideOptions).step s₂ (.connect n (some 0)) = some (s₂.connected n 0) := by
    show s₂.step (.connect n (some 0)) = some (s₂.connected n 0)
    rw [step, hcalls₂, hget]
  have hcreated : s₂.created = n := by rw [hs₂, deleteInvalid, hs₁, lockedPop, h.created]
  have hcalls₃ : (s₂.connected n 0).calls = s.calls ++ [.leased n] := by
    rw [connected, hcalls₂, hset, hcreated]
  refine ⟨s₂.connected n 0, ?_, ?_⟩
  · rw [exec_cons hstep₁, exec_cons hstep₂, exec_cons hstep₃]
    rfl
  · refine ⟨?_, ?_, ?_, htotal₂, ?_, ?_, fun _ => ?_, ?_, ?_⟩
    · rw [connected, hs₂, deleteInvalid, hs₁, lockedPop, h.options]
    · rw [connected, hs₂, deleteInvalid, hs₁, lockedPop, hpopped]
    · rw [connected, hs₂, deleteInvalid, hs₁, lockedPop, h.alive]
    · rw [hcalls₃, List.length_append, h.length, List.length_singleton]
    · rw [hcalls₃, tally_concat, h.live]
      rfl
    · rw [hcalls₃]
      by_cases hzero : n = 0
      · have hnil : s.calls = [] := List.eq_nil_of_length_eq_zero (h.length.trans hzero)
        rw [hnil, hzero]
        rfl
      · rw [List.getElem?_append_left (by rw [h.length]; omega)]
        exact h.first (Nat.pos_of_ne_zero hzero)
    · rw [connected, hcreated]
    · have hfresh : s₂.connections = fun _ => HttpConnection.new 0 := by
        rw [hs₂, deleteInvalid, hs₁, lockedPop, h.fresh]
      rw [connected, hfresh]
      exact Function.update_eq_self _ _

end wide

end SharedPool

end Http

/-
Timers.

A `Timer` is an object that handles and the set `timers_` share; the set is ordered by
`next_` and `sequence_`, which are read through the object.  Times are `u64`, so that
every sum of a clock reading and an interval wraps around at `wrap`.

* `TimerManager` — the objects, the set and the next sequence number;
* `scan` — the loop of `listExpiredCallbacks`, with fuel;
* `Step`, `step_cases` — everything that one operation can do;
* `Armed` — the set is ordered, and no deadline is before the interval has passed;
* `punctual_of_exact` — while no sum wraps, no timer fires early and every scan ends.
-/
import Droplet.Lib.KeyedSet
import Droplet.Lib.Transition
import Mathlib.Algebra.Group.Nat.Defs
import Mathlib.Data.Prod.Lex
import Mathlib.Logic.Function.Basic

open Transition Transition.System

namespace Scheduler

/-- The number of values of a `u64`. -/
@[irreducible] def wrap : ℕ := 2 ^ 64

theorem wrap_eq : wrap = 2 ^ 64 := by rw [wrap]

theorem wrap_pos : 0 < wrap := by rw [wrap]; exact Nat.two_pow_pos 64

/-- A `Timer`: `manager` tells whether `manager_` is this manager, an empty `cb_` is
`none`.  `armed` is the instant at which the timer was last armed. -/
structure Timer where
  manager : Bool
  ms : ℕ
  next : ℕ
  sequence : ℕ
  recurring : Bool
  canceled : Bool
  cb : Option ℕ
  armed : ℕ
  deriving DecidableEq

/-- The key of `TimerComparator`. -/
def Timer.key (timer : Timer) : ℕ ×ₗ ℕ := toLex (timer.next, timer.sequence)

/-- `TimerComparator`. -/
def Timer.before (lhs rhs : Timer) : Prop :=
  if lhs.next ≠ rhs.next then lhs.next < rhs.next else lhs.sequence < rhs.sequence

instance (lhs rhs : Timer) : Decidable (lhs.before rhs) :=
  inferInstanceAs (Decidable (if lhs.next ≠ rhs.next then lhs.next < rhs.next
    else lhs.sequence < rhs.sequence))

theorem Timer.before_iff {lhs rhs : Timer} : lhs.before rhs ↔ lhs.key < rhs.key := by
  unfold Timer.before Timer.key
  rw [Prod.Lex.toLex_lt_toLex]
  split
  · next hne =>
    exact ⟨.inl, fun h => h.resolve_right fun h => hne h.1⟩
  · next heq =>
    have heq : lhs.next = rhs.next := not_not.mp heq
    exact ⟨fun h => .inr ⟨heq, h⟩, fun h => (h.resolve_left (by omega)).2⟩

theorem Timer.before_of_lt {lhs rhs : Timer} (h : lhs.next < rhs.next) : lhs.before rhs := by
  rw [Timer.before, if_pos (Nat.ne_of_lt h)]
  exact h

/-- The start that `resetTimer` computes; without `fromNow` it is found by
subtraction. -/
def Timer.startOf (timer : Timer) (fromNow : Bool) (now : ℕ) : ℕ :=
  if fromNow then now else (timer.next + wrap - timer.ms) % wrap

/-- A callback that a scan has appended, with what the timer was at that time. -/
structure Fired where
  timer : ℕ
  cb : Option ℕ
  now : ℕ
  armed : ℕ
  ms : ℕ
  recurring : Bool
  deriving DecidableEq

/-- The objects that were made, named by numbers, `timers_` and `next_sequence_`. -/
structure TimerManager where
  timer : ℕ → Timer
  created : ℕ
  timers : List ℕ
  nextSequence : ℕ

namespace TimerManager

/-- A new manager. -/
def start : TimerManager where
  timer := fun _ => ⟨false, 0, 0, 0, false, false, none, 0⟩
  created := 0
  timers := []
  nextSequence := 0

/-- The key of a timer of the set. -/
def key (s : TimerManager) (t : ℕ) : ℕ ×ₗ ℕ := (s.timer t).key

/-- Write an object that is not in the set. -/
def set (s : TimerManager) (t : ℕ) (timer : Timer) : TimerManager :=
  { s with timer := Function.update s.timer t timer }

/-- `timers_.insert`. -/
def insert (s : TimerManager) (t : ℕ) : TimerManager :=
  { s with timers := KeyedSet.insert s.key t s.timers }

/-- `timers_.erase`. -/
def erase (s : TimerManager) (t : ℕ) : TimerManager := { s with timers := s.timers.erase t }

/-- `timers_.empty() || TimerComparator{}(timer, *timers_.begin())`. -/
def atFront (s : TimerManager) (t : ℕ) : Bool :=
  match s.timers with
  | [] => true
  | first :: _ => (s.timer t).before (s.timer first)

/-- `addTimer` with the reading `now`: the manager with the new timer, which gets the
number `created`, and whether it is at the front. -/
def addTimer (s : TimerManager) (now ms cb : ℕ) (recurring : Bool) : TimerManager × Bool :=
  let s' := { s.set s.created {
      manager := true
      ms := ms
      next := (now + ms) % wrap
      sequence := s.nextSequence
      recurring := recurring
      canceled := false
      cb := some cb
      armed := now } with
    created := s.created + 1
    nextSequence := (s.nextSequence + 1) % wrap }
  (s'.insert s.created, s'.atFront s.created)

/-- The timer that `cancelTimer`, `refreshTimer` and `resetTimer` find in the set. -/
def findTimer (s : TimerManager) (t : ℕ) : Option ℕ :=
  if (s.timer t).manager = false ∨ (s.timer t).canceled then none
  else KeyedSet.find s.key t s.timers

/-- `cancelTimer`; `none` is `false`. -/
def cancelTimer (s : TimerManager) (t : ℕ) : Option TimerManager :=
  (s.findTimer t).map fun found =>
    (s.erase found).set t { s.timer t with canceled := true, manager := false, cb := none }

/-- `refreshTimer` with the reading `now`, and whether the timer is at the front. -/
def refreshTimer (s : TimerManager) (t now : ℕ) : Option (TimerManager × Bool) :=
  (s.findTimer t).map fun found =>
    let timer := s.timer t
    let s := (s.erase found).set t
      { timer with next := (now + timer.ms) % wrap, armed := now }
    (s.insert t, s.atFront t)

/-- `resetTimer`, and whether the timer is at the front. -/
def resetTimer (s : TimerManager) (t ms : ℕ) (fromNow : Bool) (now : ℕ) :
    Option (TimerManager × Bool) :=
  (s.findTimer t).map fun found =>
    let timer := s.timer t
    let s := (s.erase found).set t
      { timer with
        ms := ms
        next := (timer.startOf fromNow now + ms) % wrap
        armed := if fromNow then now else timer.armed }
    (s.insert t, s.atFront t)

/-- `getNextTimer`; without timers it is the largest `u64`. -/
def getNextTimer (s : TimerManager) (now : ℕ) : ℕ :=
  match s.timers with
  | [] => wrap - 1
  | first :: _ => if (s.timer first).next ≤ now then 0 else (s.timer first).next - now

/-- `hasTimer`. -/
def hasTimer (s : TimerManager) : Bool := !s.timers.isEmpty

/-- What a scan does with a timer that it has taken out of the set. -/
def expire (s : TimerManager) (t now : ℕ) : TimerManager × List Fired :=
  let timer := s.timer t
  let fired : Fired := ⟨t, timer.cb, now, timer.armed, timer.ms, timer.recurring⟩
  if timer.canceled then (s, [])
  else if timer.recurring then
    ((s.set t { timer with next := (now + max timer.ms 1) % wrap, armed := now }).insert t,
      [fired])
  else (s.set t { timer with canceled := true, manager := false, cb := none }, [fired])

/-- The loop of `listExpiredCallbacks`; `none` when the fuel does not suffice. -/
def scan (now : ℕ) : ℕ → TimerManager → List Fired → Option (TimerManager × List Fired)
  | 0, _, _ => none
  | fuel + 1, s, cbs =>
    match s.timers with
    | [] => some (s, cbs)
    | t :: rest =>
      if (s.timer t).next > now then some (s, cbs)
      else
        let r := ({ s with timers := rest } : TimerManager).expire t now
        scan now fuel r.1 (cbs ++ r.2)

/-- `listExpiredCallbacks`, with fuel for one look at each timer of the set and one
more. -/
def listExpiredCallbacks (s : TimerManager) (now : ℕ) : Option (TimerManager × List Fired) :=
  scan now (s.timers.length + 1) s []

end TimerManager

/-- How a timer ends or fires. -/
inductive TimerEvent
  | fired (fired : Fired)
  | cancelled (timer : ℕ)
  deriving DecidableEq

/-- An operation; a `u64` argument is one that is below `wrap`. -/
inductive TimerAction
  | addTimer (now ms cb : ℕ) (recurring : Bool)
  | cancel (timer : ℕ)
  | refresh (timer now : ℕ)
  | reset (timer ms : ℕ) (fromNow : Bool) (now : ℕ)
  | getNextTimer (now : ℕ)
  | listExpiredCallbacks (now : ℕ)
  deriving DecidableEq

/-- A manager and what has happened to its timers. -/
structure TimerRun where
  manager : TimerManager
  history : List TimerEvent

namespace TimerRun

/-- A new manager. -/
def start : TimerRun where
  manager := .start
  history := []

/-- One operation, on a timer that was made. -/
def step (s : TimerRun) (action : TimerAction) : Option TimerRun :=
  match action with
  | .addTimer now ms cb recurring =>
    if now < wrap ∧ ms < wrap then
      some { s with manager := (s.manager.addTimer now ms cb recurring).1 }
    else none
  | .cancel t =>
    match s.manager.cancelTimer t with
    | none => some s
    | some manager => some ⟨manager, s.history ++ [.cancelled t]⟩
  | .refresh t now =>
    if now < wrap then
      match s.manager.refreshTimer t now with
      | none => some s
      | some (manager, _) => some { s with manager := manager }
    else none
  | .reset t ms fromNow now =>
    if now < wrap ∧ ms < wrap then
      match s.manager.resetTimer t ms fromNow now with
      | none => some s
      | some (manager, _) => some { s with manager := manager }
    else none
  | .getNextTimer _ => some s
  | .listExpiredCallbacks now =>
    if now < wrap then
      (s.manager.listExpiredCallbacks now).map fun (manager, fired) =>
        ⟨manager, s.history ++ fired.map .fired⟩
    else none

/-- All sequences of operations. -/
def system : System TimerRun TimerAction where
  init s := s = start
  step := step

end TimerRun

/-! ### The set -/

namespace TimerManager

variable {s : TimerManager} {t u found : ℕ} {timer : Timer}

/-- Write an object that is not in the set, and insert it. -/
def place (s : TimerManager) (t : ℕ) (timer : Timer) : TimerManager := (s.set t timer).insert t

/-- Arm a timer anew. -/
def rearm (s : TimerManager) (found t ms next armed : ℕ) : TimerManager :=
  (s.erase found).place t { s.timer t with ms := ms, next := next, armed := armed }

theorem timer_set_self : (s.set t timer).timer t = timer := Function.update_self _ _ _

theorem timer_set_of_ne (h : u ≠ t) : (s.set t timer).timer u = s.timer u :=
  Function.update_of_ne h _ _

theorem timer_place_self : (s.place t timer).timer t = timer := Function.update_self _ _ _

theorem timer_place_of_ne (h : u ≠ t) : (s.place t timer).timer u = s.timer u :=
  Function.update_of_ne h _ _

theorem mem_place (h : u ∈ (s.place t timer).timers) : u = t ∨ u ∈ s.timers :=
  KeyedSet.mem_of_mem_insert h

/-- Other objects keep their keys. -/
theorem ordered_set (h : KeyedSet.Ordered s.key s.timers) (ht : t ∉ s.timers) :
    KeyedSet.Ordered (s.set t timer).key s.timers := by
  refine h.congr fun u hu => ?_
  have hne : u ≠ t := fun heq => ht (heq ▸ hu)
  show (s.timer u).key = (Function.update s.timer t timer u).key
  rw [Function.update_of_ne hne]

theorem ordered_place (h : KeyedSet.Ordered s.key s.timers) (ht : t ∉ s.timers) :
    KeyedSet.Ordered (s.place t timer).key (s.place t timer).timers :=
  KeyedSet.ordered_insert (ordered_set h ht)

theorem ordered_erase (h : KeyedSet.Ordered s.key s.timers) :
    KeyedSet.Ordered (s.erase found).key (s.erase found).timers :=
  h.sublist List.erase_sublist

theorem mem_erase (h : u ∈ (s.erase found).timers) : u ∈ s.timers := List.mem_of_mem_erase h

/-- What is found is in the set; the timer itself is live. -/
theorem findTimer_eq_some (h : s.findTimer t = some found) :
    (s.timer t).manager = true ∧ (s.timer t).canceled = false ∧ found ∈ s.timers ∧
      KeyedSet.find s.key t s.timers = some found := by
  unfold findTimer at h
  split at h
  · exact absurd h (by simp)
  · next hlive =>
    rw [not_or, Bool.not_eq_false, Bool.not_eq_true] at hlive
    exact ⟨hlive.1, hlive.2, (KeyedSet.find_eq_some h).1, h⟩

/-- Without what is found, the timer is not in the set. -/
theorem not_mem_erase_found (h : KeyedSet.Ordered s.key s.timers)
    (hfind : s.findTimer t = some found) : t ∉ (s.erase found).timers := by
  obtain ⟨-, -, -, hfind⟩ := findTimer_eq_some hfind
  by_cases ht : t ∈ s.timers
  · rw [KeyedSet.find_self h ht, Option.some_inj] at hfind
    subst hfind
    exact List.Nodup.not_mem_erase h.nodup
  · exact fun hmem => ht (mem_erase hmem)

/-- The first timer is out of the set and goes back into it. -/
theorem not_mem_rest {rest : List ℕ} (h : KeyedSet.Ordered s.key s.timers)
    (htimers : s.timers = t :: rest) : t ∉ rest := by
  have hnodup := h.nodup
  rw [htimers] at hnodup
  exact (List.nodup_cons.mp hnodup).1

end TimerManager

/-! ### The timers of the set -/

namespace TimerManager

variable {s s' : TimerManager} {t now : ℕ} {timer : Timer} {rest : List ℕ}
  {cbs cbs' : List Fired}

/-- The set is ordered and holds timers of this manager, which were made, are not
cancelled and have a callback. -/
structure Sound (s : TimerManager) : Prop where
  ordered : KeyedSet.Ordered s.key s.timers
  member : ∀ t ∈ s.timers, (s.timer t).manager = true
  live : ∀ t, (s.timer t).manager = true →
    t < s.created ∧ (s.timer t).canceled = false ∧ (s.timer t).cb ≠ none

namespace Sound

theorem erase (h : s.Sound) (found : ℕ) : (s.erase found).Sound where
  ordered := ordered_erase h.ordered
  member t ht := h.member t (mem_erase ht)
  live := h.live

theorem tail (h : s.Sound) (htimers : s.timers = t :: rest) :
    ({ s with timers := rest } : TimerManager).Sound where
  ordered := h.ordered.sublist (htimers ▸ List.sublist_cons_self t rest)
  member u hu := h.member u (htimers ▸ List.mem_cons_of_mem t hu)
  live := h.live

/-- The first timer is the earliest. -/
theorem next_le (h : s.Sound) (htimers : s.timers = t :: rest) {u : ℕ} (hu : u ∈ s.timers) :
    (s.timer t).next ≤ (s.timer u).next := by
  have hordered : KeyedSet.Ordered s.key (t :: rest) := htimers ▸ h.ordered
  have hle : s.key t ≤ s.key u := hordered.head_le (htimers ▸ hu)
  obtain hlt | ⟨heq, -⟩ := Prod.Lex.toLex_le_toLex.mp hle
  · exact Nat.le_of_lt hlt
  · exact Nat.le_of_eq heq

/-- An object outside the set is written. -/
theorem set (h : s.Sound) (ht : t ∉ s.timers)
    (hlive : timer.manager = true → t < s.created ∧ timer.canceled = false ∧ timer.cb ≠ none) :
    (s.set t timer).Sound where
  ordered := ordered_set h.ordered ht
  member u hu := by
    have hne : u ≠ t := fun heq => ht (heq ▸ hu)
    rw [timer_set_of_ne hne]
    exact h.member u hu
  live u hu := by
    by_cases heq : u = t
    · rw [heq, timer_set_self] at hu ⊢
      exact hlive hu
    · rw [timer_set_of_ne heq] at hu ⊢
      exact h.live u hu

/-- A live timer gets into the set. -/
theorem place (h : s.Sound) (ht : t ∉ s.timers) (hmanager : timer.manager = true)
    (hlive : t < s.created ∧ timer.canceled = false ∧ timer.cb ≠ none) :
    (s.place t timer).Sound where
  ordered := ordered_place h.ordered ht
  member u hu := by
    by_cases heq : u = t
    · rw [heq, timer_place_self]
      exact hmanager
    · rw [timer_place_of_ne heq]
      exact h.member u ((mem_place hu).resolve_left heq)
  live := (h.set ht fun _ => hlive).live

/-- A new timer. -/
theorem addTimer (h : s.Sound) (now ms cb : ℕ) (recurring : Bool) :
    (s.addTimer now ms cb recurring).1.Sound := by
  have hnew : s.created ∉ s.timers := fun hmem =>
    Nat.lt_irrefl _ (h.live _ (h.member _ hmem)).1
  have hgrown : ({ s with
      created := s.created + 1
      nextSequence := (s.nextSequence + 1) % wrap } : TimerManager).Sound :=
    ⟨h.ordered, h.member, fun t ht => ⟨Nat.lt_succ_of_lt (h.live t ht).1, (h.live t ht).2⟩⟩
  exact hgrown.place hnew rfl ⟨Nat.lt_succ_self _, rfl, by simp⟩

/-- A timer that is found is armed anew. -/
theorem rearm (h : s.Sound) {found ms next armed : ℕ} (hfind : s.findTimer t = some found) :
    (s.rearm found t ms next armed).Sound := by
  obtain ⟨hmanager, -, -, -⟩ := findTimer_eq_some hfind
  exact (h.erase found).place (not_mem_erase_found h.ordered hfind) hmanager
    (h.live t hmanager)

/-- A timer that is found is cancelled. -/
theorem cancel (h : s.Sound) {found : ℕ} (hfind : s.findTimer t = some found) :
    ((s.erase found).set t
      { s.timer t with canceled := true, manager := false, cb := none }).Sound :=
  (h.erase found).set (not_mem_erase_found h.ordered hfind) fun hfalse => absurd hfalse (by simp)

end Sound

theorem sound_start : start.Sound where
  ordered := List.Pairwise.nil
  member t ht := absurd ht (by simp [start])
  live t ht := absurd ht (by simp [start])

/-! ### Scans -/

/-- A timer that a scan takes out of the set fires: a recurring one goes back. -/
theorem expire_cases (now : ℕ) (hcanceled : (s.timer t).canceled = false) :
    (s.timer t).recurring = true ∧
      s.expire t now = (s.place t
          { s.timer t with next := (now + max (s.timer t).ms 1) % wrap, armed := now },
        [⟨t, (s.timer t).cb, now, (s.timer t).armed, (s.timer t).ms, true⟩]) ∨
    (s.timer t).recurring = false ∧
      s.expire t now = (s.set t
          { s.timer t with canceled := true, manager := false, cb := none },
        [⟨t, (s.timer t).cb, now, (s.timer t).armed, (s.timer t).ms, false⟩]) := by
  cases hrecurring : (s.timer t).recurring with
  | true =>
    refine .inl ⟨rfl, ?_⟩
    simp only [expire, hcanceled, hrecurring]
    rfl
  | false =>
    refine .inr ⟨rfl, ?_⟩
    simp only [expire, hcanceled, hrecurring]
    rfl

/-- **Scans** preserve what each look at the first timer preserves. -/
theorem scan_induct {I : TimerManager → List Fired → Prop}
    (hstep : ∀ s cbs t rest, I s cbs → s.timers = t :: rest → (s.timer t).next ≤ now →
      I (({ s with timers := rest } : TimerManager).expire t now).1
        (cbs ++ (({ s with timers := rest } : TimerManager).expire t now).2))
    {fuel : ℕ} (hI : I s cbs) (hscan : scan now fuel s cbs = some (s', cbs')) : I s' cbs' := by
  induction fuel generalizing s cbs with
  | zero => exact absurd hscan (by simp [scan])
  | succ fuel ih =>
    unfold scan at hscan
    split at hscan
    · obtain ⟨rfl, rfl⟩ := Prod.mk.inj (Option.some_inj.mp hscan)
      exact hI
    · next t rest htimers =>
      split at hscan
      · obtain ⟨rfl, rfl⟩ := Prod.mk.inj (Option.some_inj.mp hscan)
        exact hI
      · next hdue => exact ih (hstep s cbs t rest hI htimers (not_lt.mp hdue)) hscan

namespace Sound

/-- One look at the first timer. -/
theorem expire (h : s.Sound) (htimers : s.timers = t :: rest) :
    (({ s with timers := rest } : TimerManager).expire t now).1.Sound := by
  have hrest : t ∉ rest := not_mem_rest h.ordered htimers
  have hmanager := h.member t (htimers ▸ List.mem_cons_self)
  have hlive := h.live t hmanager
  obtain ⟨-, heq⟩ | ⟨-, heq⟩ :=
    expire_cases (s := { s with timers := rest }) now hlive.2.1
  · rw [heq]
    exact (h.tail htimers).place hrest hmanager hlive
  · rw [heq]
    exact (h.tail htimers).set hrest fun hfalse => absurd hfalse (by simp)

theorem listExpiredCallbacks (h : s.Sound)
    (hscan : s.listExpiredCallbacks now = some (s', cbs)) : s'.Sound :=
  scan_induct (I := fun s _ => s.Sound) (fun _ _ _ _ hs htimers _ => hs.expire htimers) h hscan

end Sound

/-- No deadline of a live timer is before its interval has passed. -/
def Due (s : TimerManager) : Prop :=
  ∀ t, (s.timer t).manager = true →
    (s.timer t).armed + (s.timer t).ms ≤ (s.timer t).next ∧ (s.timer t).next < wrap

theorem due_start : start.Due := fun t ht => absurd ht (by simp [start])

/-- An object is written whose deadline is right, or which is dead. -/
theorem Due.set (h : s.Due) (hdue : timer.manager = true →
    timer.armed + timer.ms ≤ timer.next ∧ timer.next < wrap) : (s.set t timer).Due := by
  intro u hu
  by_cases heq : u = t
  · rw [heq, timer_set_self] at hu ⊢
    exact hdue hu
  · rw [timer_set_of_ne heq] at hu ⊢
    exact h u hu

/-- The sums by which a scan arms recurring timers do not wrap. -/
def ExactScan (s : TimerManager) (now : ℕ) : Prop :=
  ∀ t ∈ s.timers, (s.timer t).recurring = true → (s.timer t).next ≤ now →
    now + max (s.timer t).ms 1 < wrap

instance (s : TimerManager) (now : ℕ) : Decidable (s.ExactScan now) :=
  inferInstanceAs (Decidable (∀ t ∈ s.timers, (s.timer t).recurring = true →
    (s.timer t).next ≤ now → now + max (s.timer t).ms 1 < wrap))

/-- How many timers are due. -/
def dueCount (now : ℕ) (s : TimerManager) : ℕ := s.timers.countP fun u => (s.timer u).next ≤ now

/-- In the middle of a scan: what has fired was due, and does not fire again. -/
structure Scanning (now : ℕ) (s : TimerManager) (cbs : List Fired) : Prop where
  sound : s.Sound
  due : s.Due
  exact : s.ExactScan now
  punctual : ∀ fired ∈ cbs, fired.armed + fired.ms ≤ fired.now
  nodup : (cbs.map Fired.timer).Nodup
  later : ∀ fired ∈ cbs, fired.timer ∈ s.timers → now < (s.timer fired.timer).next

namespace Scanning

/-- A timer that fires has not fired in this scan. -/
theorem nodup_append (h : Scanning now s cbs) {fired : Fired} (ht : fired.timer ∈ s.timers)
    (hdue : (s.timer fired.timer).next ≤ now) :
    ((cbs ++ [fired]).map Fired.timer).Nodup := by
  rw [List.map_append, List.map_singleton, List.nodup_append]
  refine ⟨h.nodup, List.pairwise_singleton _ _, fun i hi j hj hij => ?_⟩
  obtain ⟨earlier, hearlier, rfl⟩ := List.mem_map.mp hi
  have heq : earlier.timer = fired.timer := hij.trans (List.mem_singleton.mp hj)
  have := h.later earlier hearlier (heq ▸ ht)
  rw [heq] at this
  omega

/-- One look at the first timer. -/
theorem step (h : Scanning now s cbs) (htimers : s.timers = t :: rest)
    (hdue : (s.timer t).next ≤ now) :
    Scanning now (({ s with timers := rest } : TimerManager).expire t now).1
      (cbs ++ (({ s with timers := rest } : TimerManager).expire t now).2) ∧
    dueCount now (({ s with timers := rest } : TimerManager).expire t now).1 + 1 =
      dueCount now s := by
  have ht : t ∈ s.timers := htimers ▸ List.mem_cons_self
  have hrest : t ∉ rest := not_mem_rest h.sound.ordered htimers
  have hsub : ∀ u ∈ rest, u ∈ s.timers := fun u hu => htimers ▸ List.mem_cons_of_mem t hu
  have hsound := h.sound.tail htimers
  have htail : ({ s with timers := rest } : TimerManager).Due := h.due
  have hmanager := h.sound.member t ht
  have hlive := h.sound.live t hmanager
  obtain ⟨harmed, hnext⟩ := h.due t hmanager
  -- whether it fires again or not, it has not fired early
  have hpunctual : ∀ recurring,
      ∀ fired ∈ cbs ++ [(⟨t, (s.timer t).cb, now, (s.timer t).armed, (s.timer t).ms,
        recurring⟩ : Fired)], fired.armed + fired.ms ≤ fired.now := by
    intro recurring fired hmem
    obtain hold | hnew := List.mem_append.mp hmem
    · exact h.punctual fired hold
    · obtain rfl := List.mem_singleton.mp hnew
      show (s.timer t).armed + (s.timer t).ms ≤ now
      omega
  have hcount : dueCount now s = (rest.countP fun u => (s.timer u).next ≤ now) + 1 := by
    rw [dueCount, htimers, List.countP_cons_of_pos (by simpa using hdue)]
  obtain ⟨hrecurring, heq⟩ | ⟨-, heq⟩ :=
    expire_cases (s := { s with timers := rest }) now hlive.2.1
  · -- a recurring timer goes back behind `now`
    -- its next time does not wrap, so that it is not due again in this scan
    have hsum := h.exact t ht hrecurring hdue
    have hms : (s.timer t).ms ≤ max (s.timer t).ms 1 := Nat.le_max_left _ _
    have hone : 1 ≤ max (s.timer t).ms 1 := Nat.le_max_right _ _
    have hmod : (now + max (s.timer t).ms 1) % wrap = now + max (s.timer t).ms 1 :=
      Nat.mod_eq_of_lt hsum
    rw [heq]
    refine ⟨⟨hsound.place hrest hmanager hlive,
      htail.set fun _ => ⟨?_, ?_⟩, ?_, hpunctual true, h.nodup_append ht hdue, ?_⟩, ?_⟩
    · show now + (s.timer t).ms ≤ (now + max (s.timer t).ms 1) % wrap
      rw [hmod]
      exact Nat.add_le_add_left hms now
    · show (now + max (s.timer t).ms 1) % wrap < wrap
      rw [hmod]
      exact hsum
    · intro u hu hu_recurring hu_due
      by_cases hut : u = t
      · rw [hut, timer_place_self] at hu_due
        have hu_due : (now + max (s.timer t).ms 1) % wrap ≤ now := hu_due
        rw [hmod] at hu_due
        omega
      · rw [timer_place_of_ne hut] at hu_recurring hu_due ⊢
        exact h.exact u (hsub u ((mem_place hu).resolve_left hut)) hu_recurring hu_due
    · intro fired hfired hmem
      by_cases hut : fired.timer = t
      · rw [hut, timer_place_self]
        show now < (now + max (s.timer t).ms 1) % wrap
        rw [hmod]
        omega
      · rw [timer_place_of_ne hut]
        obtain hold | hnew := List.mem_append.mp hfired
        · exact h.later fired hold (hsub _ ((mem_place hmem).resolve_left hut))
        · exact absurd (by rw [List.mem_singleton.mp hnew]) hut
    · rw [hcount]
      refine congrArg (· + 1) ((KeyedSet.countP_insert ?_).trans (List.countP_congr ?_))
      · rw [timer_place_self]
        refine decide_eq_false ?_
        show ¬ (now + max (s.timer t).ms 1) % wrap ≤ now
        rw [hmod]
        omega
      · intro u hu
        have hut : u ≠ t := fun hut => hrest (hut ▸ hu)
        rw [timer_place_of_ne hut]
  · -- a one-shot timer stays out
    rw [heq]
    have hother : ∀ u ∈ rest, (({ s with timers := rest } : TimerManager).set t
        { s.timer t with canceled := true, manager := false, cb := none }).timer u =
          s.timer u :=
      fun u hu => timer_set_of_ne fun hut : u = t => hrest (hut ▸ hu)
    refine ⟨⟨hsound.set hrest (fun hfalse => absurd hfalse (by simp)),
      htail.set fun hfalse => absurd hfalse (by simp), ?_, hpunctual false, h.nodup_append ht hdue, ?_⟩,
      ?_⟩
    · intro u hu
      rw [hother u hu]
      exact h.exact u (hsub u hu)
    · intro fired hfired hmem
      rw [hother _ hmem]
      obtain hold | hnew := List.mem_append.mp hfired
      · exact h.later fired hold (hsub _ hmem)
      · have hut : fired.timer = t := by rw [List.mem_singleton.mp hnew]
        exact absurd (hut ▸ hmem) hrest
    · rw [hcount]
      refine congrArg (· + 1) (List.countP_congr fun u hu => ?_)
      rw [hother u hu]

/-- **A scan ends**, after as many looks as there are timers to fire and one more. -/
theorem scan_total {fuel : ℕ} (h : Scanning now s cbs)
    (hfuel : dueCount now s < fuel) :
    ∃ s' cbs', scan now fuel s cbs = some (s', cbs') ∧ Scanning now s' cbs' := by
  induction fuel generalizing s cbs with
  | zero => exact absurd hfuel (by omega)
  | succ fuel ih =>
    unfold scan
    split
    · exact ⟨s, cbs, rfl, h⟩
    · next t rest htimers =>
      split
      · exact ⟨s, cbs, rfl, h⟩
      · next hdue =>
        obtain ⟨hscanning, hcount⟩ := h.step htimers (not_lt.mp hdue)
        exact ih hscanning (by omega)

end Scanning

theorem Scanning.begin (hsound : s.Sound) (hdue : s.Due) (hexact : s.ExactScan now) :
    Scanning now s [] where
  sound := hsound
  due := hdue
  exact := hexact
  punctual _ h := absurd h (by simp)
  nodup := List.nodup_nil
  later _ h := absurd h (by simp)

/-- `listExpiredCallbacks` has enough fuel. -/
theorem listExpiredCallbacks_total (hsound : s.Sound) (hdue : s.Due)
    (hexact : s.ExactScan now) :
    ∃ s' cbs, s.listExpiredCallbacks now = some (s', cbs) ∧ Scanning now s' cbs :=
  (Scanning.begin hsound hdue hexact).scan_total (Nat.lt_succ_of_le List.countP_le_length)

end TimerManager

/-! ### What an operation can do -/

namespace TimerRun

open TimerManager

variable {s s' : TimerRun} {action : TimerAction}

/-- The operations, one constructor for each effect. -/
inductive Step (s : TimerRun) : TimerAction → TimerRun → Prop
  | failed {action : TimerAction} : Step s action s
  | addTimer {now ms cb : ℕ} {recurring : Bool} (hnow : now < wrap) (hms : ms < wrap) :
      Step s (.addTimer now ms cb recurring)
        { s with manager := (s.manager.addTimer now ms cb recurring).1 }
  | cancel {t found : ℕ} (hfind : s.manager.findTimer t = some found) :
      Step s (.cancel t)
        ⟨(s.manager.erase found).set t
          { s.manager.timer t with canceled := true, manager := false, cb := none },
          s.history ++ [.cancelled t]⟩
  | refresh {t found now : ℕ} (hnow : now < wrap)
      (hfind : s.manager.findTimer t = some found) :
      Step s (.refresh t now)
        ⟨s.manager.rearm found t (s.manager.timer t).ms
          ((now + (s.manager.timer t).ms) % wrap) now, s.history⟩
  | reset {t found ms now : ℕ} {fromNow : Bool} (hnow : now < wrap) (hms : ms < wrap)
      (hfind : s.manager.findTimer t = some found) :
      Step s (.reset t ms fromNow now)
        ⟨s.manager.rearm found t ms (((s.manager.timer t).startOf fromNow now + ms) % wrap)
          (if fromNow then now else (s.manager.timer t).armed), s.history⟩
  | scan {now : ℕ} {manager : TimerManager} {fired : List Fired} (hnow : now < wrap)
      (hscan : s.manager.listExpiredCallbacks now = some (manager, fired)) :
      Step s (.listExpiredCallbacks now) ⟨manager, s.history ++ fired.map .fired⟩

/-- **Inversion**: an operation has one of the effects. -/
theorem step_cases (h : s.step action = some s') : Step s action s' := by
  cases action with
  | addTimer now ms cb recurring =>
    obtain ⟨⟨hnow, hms⟩, heq⟩ := Option.ite_none_right_eq_some.mp h
    obtain rfl := Option.some_inj.mp heq
    exact .addTimer hnow hms
  | cancel t =>
    simp only [step, cancelTimer] at h
    cases hfind : s.manager.findTimer t with
    | none =>
      rw [hfind] at h
      obtain rfl := Option.some_inj.mp h
      exact .failed
    | some found =>
      rw [hfind] at h
      obtain rfl := Option.some_inj.mp h
      exact .cancel hfind
  | refresh t now =>
    simp only [step, refreshTimer] at h
    obtain ⟨hnow, heq⟩ := Option.ite_none_right_eq_some.mp h
    cases hfind : s.manager.findTimer t with
    | none =>
      rw [hfind] at heq
      obtain rfl := Option.some_inj.mp heq
      exact .failed
    | some found =>
      rw [hfind] at heq
      obtain rfl := Option.some_inj.mp heq
      exact .refresh hnow hfind
  | reset t ms fromNow now =>
    simp only [step, resetTimer] at h
    obtain ⟨⟨hnow, hms⟩, heq⟩ := Option.ite_none_right_eq_some.mp h
    cases hfind : s.manager.findTimer t with
    | none =>
      rw [hfind] at heq
      obtain rfl := Option.some_inj.mp heq
      exact .failed
    | some found =>
      rw [hfind] at heq
      obtain rfl := Option.some_inj.mp heq
      exact .reset hnow hms hfind
  | getNextTimer now =>
    obtain rfl := Option.some_inj.mp h
    exact .failed
  | listExpiredCallbacks now =>
    obtain ⟨hnow, heq⟩ := Option.ite_none_right_eq_some.mp h
    obtain ⟨⟨manager, fired⟩, hscan, rfl⟩ := Option.map_eq_some_iff.mp heq
    exact .scan hnow hscan

/-- The set stays sound. -/
theorem sound_step (h : s.manager.Sound) (hstep : Step s action s') : s'.manager.Sound := by
  cases hstep with
  | failed => exact h
  | addTimer => exact h.addTimer _ _ _ _
  | cancel hfind => exact h.cancel hfind
  | refresh hnow hfind => exact h.rearm hfind
  | reset hnow hms hfind => exact h.rearm hfind
  | scan hnow hscan => exact h.listExpiredCallbacks hscan

/-! ### No timer fires early -/

/-- The sum by which an operation arms timers does not wrap. -/
def Exact (s : TimerRun) : TimerAction → Prop
  | .addTimer now ms _ _ => now + ms < wrap
  | .refresh t now => s.manager.findTimer t ≠ none → now + (s.manager.timer t).ms < wrap
  | .reset t ms fromNow now =>
    s.manager.findTimer t ≠ none → (s.manager.timer t).startOf fromNow now + ms < wrap
  | .listExpiredCallbacks now => s.manager.ExactScan now
  | _ => True

instance (s : TimerRun) (action : TimerAction) : Decidable (s.Exact action) :=
  match action with
  | .addTimer now ms _ _ => inferInstanceAs (Decidable (now + ms < wrap))
  | .refresh t now => inferInstanceAs (Decidable
      (s.manager.findTimer t ≠ none → now + (s.manager.timer t).ms < wrap))
  | .reset t ms fromNow now => inferInstanceAs (Decidable
      (s.manager.findTimer t ≠ none → (s.manager.timer t).startOf fromNow now + ms < wrap))
  | .listExpiredCallbacks now => inferInstanceAs (Decidable (s.manager.ExactScan now))
  | .cancel _ | .getNextTimer _ => .isTrue trivial

/-- Every callback was appended when its interval had passed since the timer was last
armed. -/
def Punctual (s : TimerRun) : Prop :=
  ∀ fired, .fired fired ∈ s.history → fired.armed + fired.ms ≤ fired.now

/-- A scan at `now` ends, and appends no callback twice. -/
def Ends (s : TimerRun) (now : ℕ) : Prop :=
  ∃ fuel manager cbs, scan now fuel s.manager [] = some (manager, cbs) ∧
    (cbs.map Fired.timer).Nodup

/-- A difference that does not underflow. -/
theorem add_sub_mod {n m size : ℕ} (hle : m ≤ n) (hlt : n < size) :
    (n + size - m) % size = n - m := by
  have hsub : n + size - m = n - m + size := by omega
  rw [hsub, Nat.add_mod_right, Nat.mod_eq_of_lt (by omega)]

/-- The start that `resetTimer` computes is not before the instant the timer was
armed. -/
theorem armed_le_startOf (now : ℕ) (fromNow : Bool) (hdue : s.manager.Due) {t : ℕ}
    (hmanager : (s.manager.timer t).manager = true) :
    (if fromNow then now else (s.manager.timer t).armed) ≤
      (s.manager.timer t).startOf fromNow now := by
  obtain ⟨harmed, hnext⟩ := hdue t hmanager
  unfold Timer.startOf
  by_cases hfrom : fromNow = true
  · rw [if_pos hfrom, if_pos hfrom]
  · rw [if_neg hfrom, if_neg hfrom, add_sub_mod (Nat.le_trans (Nat.le_add_left _ _) harmed) hnext]
    exact Nat.le_sub_of_add_le harmed

/-- **Deadlines** stay right, and the history punctual, while no sum wraps. -/
theorem due_step (hsound : s.manager.Sound) (hdue : s.manager.Due) (hpunctual : s.Punctual)
    (hexact : s.Exact action) (hstep : Step s action s') :
    s'.manager.Due ∧ s'.Punctual := by
  cases hstep with
  | failed => exact ⟨hdue, hpunctual⟩
  | @addTimer now ms cb recurring hnow hms =>
    refine ⟨Due.set (s := { s.manager with created := _, nextSequence := _ }) hdue
      fun _ => ⟨?_, Nat.mod_lt _ wrap_pos⟩, hpunctual⟩
    have hexact : now + ms < wrap := hexact
    show now + ms ≤ (now + ms) % wrap
    rw [Nat.mod_eq_of_lt hexact]
  | @cancel t found hfind =>
    refine ⟨Due.set (s := s.manager.erase found) hdue fun hfalse => absurd hfalse (by simp),
      fun fired hfired => hpunctual fired ?_⟩
    have hfired : TimerEvent.fired fired ∈ s.history ++ [.cancelled t] := hfired
    simpa using hfired
  | @refresh t found now hnow hfind =>
    refine ⟨Due.set (s := s.manager.erase found) hdue
      fun _ => ⟨?_, Nat.mod_lt _ wrap_pos⟩, hpunctual⟩
    have hsum := hexact (by rw [hfind]; simp)
    show now + (s.manager.timer t).ms ≤ (now + (s.manager.timer t).ms) % wrap
    rw [Nat.mod_eq_of_lt hsum]
  | @reset t found ms now fromNow hnow hms hfind =>
    refine ⟨Due.set (s := s.manager.erase found) hdue
      fun _ => ⟨?_, Nat.mod_lt _ wrap_pos⟩, hpunctual⟩
    have hsum := hexact (by rw [hfind]; simp)
    have hstart := armed_le_startOf now fromNow hdue
      (findTimer_eq_some hfind).1
    show (if fromNow then now else (s.manager.timer t).armed) + ms ≤
      ((s.manager.timer t).startOf fromNow now + ms) % wrap
    rw [Nat.mod_eq_of_lt hsum]
    omega
  | @scan now manager cbs hnow hscan =>
    obtain ⟨_, _, hscan', hscanning⟩ := listExpiredCallbacks_total hsound hdue hexact
    rw [hscan, Option.some_inj] at hscan'
    obtain ⟨rfl, rfl⟩ := Prod.mk.inj hscan'
    refine ⟨hscanning.due, fun fired hfired => ?_⟩
    obtain hold | hnew := List.mem_append.mp hfired
    · exact hpunctual fired hold
    · obtain ⟨fired', hmem, heq⟩ := List.mem_map.mp hnew
      rw [← TimerEvent.fired.inj heq]
      exact hscanning.punctual fired' hmem

/-- **No timer fires early and every scan ends**, in every run in which no sum by which
a timer is armed wraps. -/
theorem punctual_of_exact (h : system.ReachableWhile Exact s) :
    s.Punctual ∧ ∀ now, s.Exact (.listExpiredCallbacks now) → s.Ends now := by
  obtain ⟨hsound, hdue, hpunctual⟩ : s.manager.Sound ∧ s.manager.Due ∧ s.Punctual := by
    refine h.invariant (I := fun s => s.manager.Sound ∧ s.manager.Due ∧ s.Punctual) ?_ ?_
    · rintro s rfl
      exact ⟨sound_start, due_start, fun fired hfired => absurd hfired (by simp [start])⟩
    · rintro s action s' ⟨hsound, hdue, hpunctual⟩ hexact hstep
      have hcases := step_cases hstep
      exact ⟨sound_step hsound hcases, due_step hsound hdue hpunctual hexact hcases⟩
  refine ⟨hpunctual, fun now hexact => ?_⟩
  obtain ⟨manager, cbs, hscan, hscanning⟩ := listExpiredCallbacks_total hsound hdue hexact
  exact ⟨_, manager, cbs, hscan, hscanning.nodup⟩

/-- A timer is armed, armed again from its start, fires, and fires once more. -/
theorem punctual_of_exact_run :
    ∃ s, system.exec start [.addTimer 10 5 7 true, .reset 0 8 false 12,
        .listExpiredCallbacks 17, .listExpiredCallbacks 18, .refresh 0 20] = some s ∧
      s.history = [.fired ⟨0, some 7, 18, 10, 8, true⟩] ∧ s.Punctual ∧ s.Ends 40 := by
  obtain ⟨s, hs⟩ : ∃ s, system.exec start [.addTimer 10 5 7 true, .reset 0 8 false 12,
      .listExpiredCallbacks 17, .listExpiredCallbacks 18, .refresh 0 20] = some s := by
    refine Option.isSome_iff_exists.mp ?_
    decide +kernel
  have hmeets : system.Meets Exact start [.addTimer 10 5 7 true, .reset 0 8 false 12,
      .listExpiredCallbacks 17, .listExpiredCallbacks 18, .refresh 0 20] := by
    decide +kernel
  have hreach := (ReachableWhile.init (C := Exact) rfl).exec hmeets hs
  have hhistory : (system.exec start [.addTimer 10 5 7 true, .reset 0 8 false 12,
      .listExpiredCallbacks 17, .listExpiredCallbacks 18, .refresh 0 20]).map
        TimerRun.history = some [.fired ⟨0, some 7, 18, 10, 8, true⟩] := by decide +kernel
  have hexact : ((system.exec start [.addTimer 10 5 7 true, .reset 0 8 false 12,
      .listExpiredCallbacks 17, .listExpiredCallbacks 18, .refresh 0 20]).all
        fun s => s.Exact (.listExpiredCallbacks 40)) = true := by decide +kernel
  rw [hs] at hhistory hexact
  refine ⟨s, hs, Option.some_inj.mp hhistory, (punctual_of_exact hreach).1, ?_⟩
  exact (punctual_of_exact hreach).2 40 (by simpa using hexact)

/-- A recurring timer whose deadline comes back to the same instant is found again by
every look of a scan. -/
theorem scan_diverges {s : TimerManager} {t : ℕ} (now : ℕ) (htimers : s.timers = [t])
    (hlive : (s.timer t).canceled = false ∧ (s.timer t).recurring = true)
    (hdue : (s.timer t).next ≤ now) (harmed : (s.timer t).armed = now)
    (hback : (now + max (s.timer t).ms 1) % wrap = (s.timer t).next) (fuel : ℕ)
    (cbs : List Fired) : scan now fuel s cbs = none := by
  have hexpire : (({ s with timers := [] } : TimerManager).expire t now).1 = s := by
    obtain ⟨-, heq⟩ | ⟨hone, -⟩ :=
      expire_cases (s := { s with timers := [] }) now hlive.1
    · have htimer : ({ s.timer t with
          next := (now + max (s.timer t).ms 1) % wrap, armed := now } : Timer) = s.timer t := by
        rw [hback, ← harmed]
      have hsame : Function.update s.timer t (s.timer t) = s.timer := Function.update_eq_self _ _
      rw [heq]
      show ({ s with timer := Function.update s.timer t _, timers := [t] } : TimerManager) = s
      rw [htimer, hsame, ← htimers]
    · exact absurd (hone.symm.trans hlive.2) (by simp)
  induction fuel generalizing cbs with
  | zero => rfl
  | succ fuel ih =>
    unfold scan
    rw [htimers]
    show (if (s.timer t).next > now then some (s, cbs)
      else scan now fuel (({ s with timers := [] } : TimerManager).expire t now).1 _) = none
    rw [if_neg (not_lt.mpr hdue), hexpire]
    exact ih _

/-- An interval of almost the whole range: a timer fires at once, and the scan of a
recurring one does not end. -/
theorem not_punctual_wrapped :
    (∃ s, system.Reachable s ∧ ¬ s.Punctual) ∧ ∃ s, system.Reachable s ∧ ¬ s.Ends 10 := by
  have hstart := ReachableWhile.init (M := system) (C := fun _ _ => True) rfl
  constructor
  · obtain ⟨s, hs⟩ : ∃ s, system.exec start [.addTimer 10 (2 ^ 64 - 1) 7 false,
        .listExpiredCallbacks 10] = some s := by
      refine Option.isSome_iff_exists.mp ?_
      decide +kernel
    refine ⟨s, hstart.exec (meets_true _ _ _) hs, fun hpunctual => ?_⟩
    have hhistory : (system.exec start [.addTimer 10 (2 ^ 64 - 1) 7 false,
        .listExpiredCallbacks 10]).map TimerRun.history =
          some [.fired ⟨0, some 7, 10, 10, 2 ^ 64 - 1, false⟩] := by decide +kernel
    rw [hs] at hhistory
    have hearly := hpunctual ⟨0, some 7, 10, 10, 2 ^ 64 - 1, false⟩
      (by rw [Option.some_inj.mp hhistory]; exact List.mem_singleton_self _)
    exact absurd hearly (by decide +kernel)
  · obtain ⟨s, hs⟩ : ∃ s, system.exec start [.addTimer 10 (2 ^ 64 - 1) 7 true] = some s := by
      refine Option.isSome_iff_exists.mp ?_
      decide +kernel
    refine ⟨s, hstart.exec (meets_true _ _ _) hs, ?_⟩
    have hstate : (system.exec start [.addTimer 10 (2 ^ 64 - 1) 7 true]).map
        (fun s => (s.manager.timers, s.manager.timer 0)) =
          some ([0], ⟨true, 2 ^ 64 - 1, 9, 0, true, false, some 7, 10⟩) := by decide +kernel
    rw [hs] at hstate
    obtain ⟨htimers, htimer⟩ := Prod.mk.inj (Option.some_inj.mp hstate)
    rintro ⟨fuel, manager, cbs, hscan, -⟩
    have hdiverges := scan_diverges 10 htimers (by rw [htimer]; exact ⟨rfl, rfl⟩)
      (by rw [htimer]; decide +kernel) (by rw [htimer]) (by rw [htimer]; decide +kernel) fuel []
    rw [hdiverges] at hscan
    exact absurd hscan (by simp)

end TimerRun

end Scheduler

/-
A configuration value and its listeners.

`setValue` exchanges the value under a mutex and notifies the listeners after it has
released it, from a copy of the table that it takes under a second mutex.  A listener runs
while its notification is delivered, and may call `setValue` itself.

* `ConfigVar.Sound` — every change is made by one call, and each listener that stays
  registered has received it once or will;
* `ConfigVar.notified` — when all calls have returned, such a listener has received the
  change of each call that returned `true` once, and in the order of the exchanges if no
  change was delivered to it while an earlier one was still to be;
* `ConfigVar.not_converges` — a listener that calls `setValue` leaves the next one with the
  value before the last.
-/
import Droplet.Lib.Tally
import Droplet.Lib.Transition
import Mathlib.Data.List.Nodup
import Mathlib.Data.List.Chain

open Transition Transition.System Tally

namespace Config

abbrev ListenerId := ℕ

/-- A change of the value, and its place among all changes. -/
structure Change (α : Type) where
  place : ℕ
  old : α
  new : α
  deriving DecidableEq

/-- Where a call of `setValue` is.  `remaining` is what is left of the copy of the table; a
call that returns `true` does so with a change. -/
inductive Phase (α : Type)
  | entered (value : α)
  | stored (change : Change α)
  | notifying (change : Change α) (remaining : List ListenerId)
  | inListener (change : Change α) (remaining : List ListenerId)
  | returned (change : Option (Change α))
  deriving DecidableEq

/-- A call of `setValue`; `caller` is the call whose listener made it. -/
structure Call (α : Type) where
  caller : Option ℕ
  phase : Phase α
  deriving DecidableEq

/-- A value, its listeners and the calls of `setValue`.  `issued`, `stores` and `received`
are records of the run: the identifiers given out, the exchanges that changed the value and
the notifications, in their order. -/
structure ConfigVar (α : Type) where
  value : α
  listeners : List ListenerId
  issued : List ListenerId
  calls : List (Call α)
  stores : List (α × α)
  received : List (ListenerId × Change α)
  deriving DecidableEq

inductive Action (α : Type)
  | setValue (caller : Option ℕ) (value : α)
  | exchange (call : ℕ)
  | snapshot (call : ℕ)
  | invoke (call : ℕ)
  | leaveListener (call : ℕ)
  | finish (call : ℕ)
  | addListener (id : ListenerId)
  | removeListener (id : ListenerId)
  | clearListeners

variable {α : Type}

def Phase.isReturned : Phase α → Bool
  | .returned _ => true
  | _ => false

/-- The change that a call has made. -/
def Phase.change : Phase α → Option (Change α)
  | .entered _ => none
  | .stored change | .notifying change _ | .inListener change _ => some change
  | .returned change => change

/-- How often the change of this place is still to be delivered to a listener. -/
def Phase.owed (l : ListenerId) (k : ℕ) : Phase α → ℕ
  | .stored change => if change.place = k then 1 else 0
  | .notifying change remaining | .inListener change remaining =>
    if change.place = k then remaining.count l else 0
  | .entered _ | .returned _ => 0

/-- The notification that a call sends next. -/
def Phase.next : Phase α → Option (ListenerId × Change α)
  | .notifying change (l :: _) => some (l, change)
  | _ => none

/-- Whether the call has made the change of this place. -/
def Phase.made (k : ℕ) (phase : Phase α) : ℕ :=
  if phase.change.map Change.place = some k then 1 else 0

/-- `*old_value == *new_value`, for a type that can be compared. -/
def unchanged (same : Option (α → α → Bool)) (old new : α) : Bool :=
  (same.map fun same => same old new).getD false

namespace ConfigVar

/-- A call waits while a listener that it has called is in a call of its own. -/
def waits (s : ConfigVar α) (i : ℕ) : Bool :=
  s.calls.any fun call => call.caller == some i && !call.phase.isReturned

/-- Who may begin a call: a thread, or the listener that a call is in. -/
def admits (s : ConfigVar α) : Option ℕ → Bool
  | none => true
  | some i => match s.calls[i]? with
    | some ⟨_, .inListener _ _⟩ => !s.waits i
    | _ => false

/-- A call goes on. -/
def goOn (s : ConfigVar α) (i : ℕ) (caller : Option ℕ) (phase : Phase α) : ConfigVar α :=
  { s with calls := s.calls.set i ⟨caller, phase⟩ }

/-- The exchange under `writeMutex_`. -/
def store (same : Option (α → α → Bool)) (s : ConfigVar α) (i : ℕ) (caller : Option ℕ)
    (value : α) : ConfigVar α :=
  if unchanged same s.value value then s.goOn i caller (.returned none)
  else { s.goOn i caller (.stored ⟨s.stores.length, s.value, value⟩) with
    value := value
    stores := s.stores ++ [(s.value, value)] }

def step (same : Option (α → α → Bool)) (s : ConfigVar α) : Action α → Option (ConfigVar α)
  | .setValue caller value =>
    if s.admits caller then some { s with calls := s.calls ++ [⟨caller, .entered value⟩] } else none
  | .exchange i => match s.calls[i]? with
    | some ⟨caller, .entered value⟩ => some (s.store same i caller value)
    | _ => none
  | .snapshot i => match s.calls[i]? with
    | some ⟨caller, .stored change⟩ => some (s.goOn i caller (.notifying change s.listeners))
    | _ => none
  | .invoke i => match s.calls[i]? with
    | some ⟨caller, .notifying change (l :: remaining)⟩ =>
      some { s.goOn i caller (.inListener change remaining) with
        received := s.received ++ [(l, change)] }
    | _ => none
  -- an exception that a listener throws is caught and reported
  | .leaveListener i => match s.calls[i]? with
    | some ⟨caller, .inListener change remaining⟩ =>
      if s.waits i then none else some (s.goOn i caller (.notifying change remaining))
    | _ => none
  | .finish i => match s.calls[i]? with
    | some ⟨caller, .notifying change []⟩ => some (s.goOn i caller (.returned (some change)))
    | _ => none
  -- the counter of the identifiers is shared by all values, so that it can skip some
  | .addListener id =>
    if id = 0 ∨ id ∈ s.issued then none
    else some { s with listeners := s.listeners ++ [id], issued := s.issued ++ [id] }
  | .removeListener id => some { s with listeners := s.listeners.erase id }
  | .clearListeners => some { s with listeners := [] }

/-- A value that nobody is setting. -/
def new (value : α) (registered : List ListenerId) : ConfigVar α where
  value := value
  listeners := registered
  issued := registered
  calls := []
  stores := []
  received := []

def system (same : Option (α → α → Bool)) (value : α) (registered : List ListenerId) :
    System (ConfigVar α) (Action α) where
  init s := s = new value registered
  step := step same

/-- All calls have returned. -/
def quiescent (s : ConfigVar α) : Bool := s.calls.all fun call => call.phase.isReturned

/-- What a listener has received. -/
def changes (s : ConfigVar α) (l : ListenerId) : List (Change α) :=
  (s.received.filter fun notification => notification.1 == l).map Prod.snd

/-- The changes that the calls have made: of those that have returned, the changes of the
calls that returned `true`. -/
def succeeded (s : ConfigVar α) : List (Change α) :=
  s.calls.filterMap fun call => call.phase.change

end ConfigVar

def Change.pair (change : Change α) : α × α := (change.old, change.new)

/-- The changes lead from one value to another. -/
def Leads : α → List (α × α) → α → Prop
  | a, [], b => a = b
  | a, pair :: pairs, b => pair.1 = a ∧ Leads pair.2 pairs b

/-- A listener stays registered. -/
def Action.Keeps (l : ListenerId) : Action α → Prop
  | .removeListener id => id ≠ l
  | .clearListeners => False
  | _ => True

instance Action.Keeps.decidable (l : ListenerId) : (a : Action α) → Decidable (a.Keeps l)
  | .removeListener id => inferInstanceAs (Decidable (id ≠ l))
  | .clearListeners => .isFalse id
  | .setValue _ _ | .exchange _ | .snapshot _ | .invoke _ | .leaveListener _ | .finish _
  | .addListener _ => .isTrue trivial

/-- A change is not delivered to a listener while an earlier one is still to be. -/
def ConfigVar.InOrder (l : ListenerId) (s : ConfigVar α) : Action α → Prop
  | .invoke i => ∀ call ∈ s.calls[i]?, ∀ next ∈ call.phase.next, next.1 = l →
      ∀ other ∈ s.calls, ∀ k < next.2.place, other.phase.owed l k = 0
  | _ => True

instance ConfigVar.InOrder.decidable (l : ListenerId) (s : ConfigVar α) :
    (a : Action α) → Decidable (s.InOrder l a)
  | .invoke i => inferInstanceAs (Decidable (∀ call ∈ s.calls[i]?, ∀ next ∈ call.phase.next,
      next.1 = l → ∀ other ∈ s.calls, ∀ k < next.2.place, other.phase.owed l k = 0))
  | .setValue _ _ | .exchange _ | .snapshot _ | .leaveListener _ | .finish _ | .addListener _
  | .removeListener _ | .clearListeners => .isTrue trivial

/-- What a listener is to have received when all calls have returned. -/
structure ConfigVar.Converges (s : ConfigVar α) (l : ListenerId) : Prop where
  last : ∀ change ∈ (s.changes l).getLast?, change.new = s.value
  once : (s.changes l).Perm s.succeeded
  chained : ((s.changes l).map Change.pair).IsChain fun a b => b.1 = a.2

/-! ### Changes in a row -/

theorem Leads.append {a b c : α} {pairs : List (α × α)} (h : Leads a pairs b) :
    Leads a (pairs ++ [(b, c)]) c := by
  induction pairs generalizing a with
  | nil =>
    obtain rfl : a = b := h
    exact ⟨rfl, rfl⟩
  | cons pair pairs ih => exact ⟨h.1, ih h.2⟩

theorem Leads.isChain {a b : α} {pairs : List (α × α)} (h : Leads a pairs b) :
    pairs.IsChain fun x y => y.1 = x.2 := by
  induction pairs generalizing a with
  | nil => exact List.IsChain.nil
  | cons pair pairs ih =>
    cases pairs with
    | nil => exact List.IsChain.singleton pair
    | cons next pairs => exact List.IsChain.cons_cons h.2.1 (ih h.2)

theorem Leads.last {a b : α} {pairs : List (α × α)} (h : Leads a pairs b) {pair : α × α}
    (hlast : pair ∈ pairs.getLast?) : pair.2 = b := by
  induction pairs generalizing a with
  | nil => exact absurd hlast (by simp)
  | cons first pairs ih =>
    cases pairs with
    | nil =>
      rw [List.getLast?_singleton, Option.mem_some_iff] at hlast
      exact hlast ▸ h.2
    | cons next pairs =>
      rw [List.getLast?_cons_cons] at hlast
      exact ih h.2 hlast

/-! ### What a step keeps -/

variable {same : Option (α → α → Bool)} {value : α} {l : ListenerId} {s s' : ConfigVar α}
  {i : ℕ} {caller : Option ℕ} {phase phase' : Phase α} {change : Change α}

namespace ConfigVar

/-- For a listener that stays registered.  Every change is made by one call, and has been
delivered once or will be. -/
structure Sound (value : α) (l : ListenerId) (s : ConfigVar α) : Prop where
  registered : l ∈ s.listeners
  nodup : s.listeners.Nodup
  issued : ∀ id ∈ s.listeners, id ∈ s.issued
  leads : Leads value s.stores s.value
  made : ∀ k, tally (fun call => call.phase.made k) s.calls = if k < s.stores.length then 1 else 0
  recorded : ∀ call ∈ s.calls, ∀ change ∈ call.phase.change,
    s.stores[change.place]? = some change.pair
  once : ∀ k, ((s.changes l).map Change.place).count k +
    tally (fun call => call.phase.owed l k) s.calls = if k < s.stores.length then 1 else 0
  delivered : ∀ change ∈ s.changes l, s.stores[change.place]? = some change.pair

theorem sound_new {registered : List ListenerId} (hnodup : registered.Nodup)
    (hl : l ∈ registered) : Sound value l (new value registered) where
  registered := hl
  nodup := hnodup
  issued := fun _ hid => hid
  leads := rfl
  made := fun _ => rfl
  recorded := fun _ hcall => absurd hcall List.not_mem_nil
  once := fun _ => rfl
  delivered := fun _ hchange => absurd hchange List.not_mem_nil

theorem made_congr (hchange : phase'.change = phase.change) (k : ℕ) :
    phase'.made k = phase.made k := by
  rw [Phase.made, hchange, Phase.made]

theorem made_of_change (change : Change α) (hchange : phase.change = some change) (k : ℕ) :
    phase.made k = if change.place = k then 1 else 0 := by
  rw [Phase.made, hchange, Option.map_some]
  simp only [Option.some_inj]

/-- A call goes on, and with it what it owes and what has been delivered. -/
theorem Sound.goOn (h : Sound value l s) (hcall : s.calls[i]? = some ⟨caller, phase⟩)
    (hcalls : s'.calls = s.calls.set i ⟨caller, phase'⟩)
    (hchange : phase'.change = phase.change) (hlisteners : s'.listeners = s.listeners)
    (hissued : s'.issued = s.issued) (hstores : s'.stores = s.stores) (hvalue : s'.value = s.value)
    (honce : ∀ k, ((s'.changes l).map Change.place).count k + phase'.owed l k =
      ((s.changes l).map Change.place).count k + phase.owed l k)
    (hdelivered : ∀ c ∈ s'.changes l, c ∈ s.changes l ∨ phase.change = some c) :
    Sound value l s' where
  registered := hlisteners ▸ h.registered
  nodup := hlisteners ▸ h.nodup
  issued := by
    rw [hlisteners, hissued]
    exact h.issued
  leads := by
    rw [hstores, hvalue]
    exact h.leads
  made := by
    intro k
    have hset := tally_set (f := fun call => call.phase.made k) hcall ⟨caller, phase'⟩
    rw [hcalls, hstores, ← h.made k]
    have hsame := made_congr hchange k
    simp only at hset
    omega
  recorded := by
    intro call hmem c hc
    rw [hstores]
    rcases mem_set (hcalls ▸ hmem) with rfl | ⟨j, -, hj⟩
    · exact h.recorded _ (List.mem_of_getElem? hcall) c (hchange ▸ hc)
    · exact h.recorded call (List.mem_of_getElem? hj) c hc
  once := by
    intro k
    have hset := tally_set (f := fun call => call.phase.owed l k) hcall ⟨caller, phase'⟩
    have hbefore := h.once k
    have hafter := honce k
    rw [hcalls, hstores]
    simp only at hset
    omega
  delivered := by
    intro c hc
    rw [hstores]
    rcases hdelivered c hc with hold | hnew
    · exact h.delivered c hold
    · exact h.recorded _ (List.mem_of_getElem? hcall) c hnew

/-- A call that has only been entered owes nothing. -/
theorem Sound.enter (h : Sound value l s) (caller : Option ℕ) (entered : α) :
    Sound value l { s with calls := s.calls ++ [⟨caller, .entered entered⟩] } where
  registered := h.registered
  nodup := h.nodup
  issued := h.issued
  leads := h.leads
  made := by
    intro k
    rw [tally_concat]
    exact h.made k
  recorded := by
    intro call hmem change hchange
    rcases List.mem_append.mp hmem with hold | hnew
    · exact h.recorded call hold change hchange
    · obtain rfl := List.mem_singleton.mp hnew
      exact absurd hchange (by simp [Phase.change])
  once := by
    intro k
    rw [tally_concat]
    exact h.once k
  delivered := h.delivered

theorem getElem?_concat_of_eq_some {β : Type} {stores : List β} {k : ℕ} {x : β} (y : β)
    (h : stores[k]? = some x) : (stores ++ [y])[k]? = some x := by
  obtain ⟨hlt, -⟩ := List.getElem?_eq_some_iff.mp h
  rw [List.getElem?_append_left hlt]
  exact h

/-- The places of a table with one more entry. -/
theorem placed_concat {β : Type} (stores : List β) (y : β) (k : ℕ) :
    (if k < (stores ++ [y]).length then 1 else 0) =
      (if k < stores.length then 1 else 0) + if stores.length = k then 1 else 0 := by
  rw [List.length_append, List.length_singleton]
  split_ifs <;> omega

theorem Sound.store (h : Sound value l s) {entered : α}
    (hcall : s.calls[i]? = some ⟨caller, .entered entered⟩) :
    Sound value l (s.store same i caller entered) := by
  rw [ConfigVar.store]
  split_ifs with hsame
  · exact h.goOn hcall rfl rfl rfl rfl rfl rfl (fun _ => rfl) fun c hc => .inl hc
  · constructor
    · exact h.registered
    · exact h.nodup
    · exact h.issued
    · exact h.leads.append
    · intro k
      have hset := tally_set (f := fun call => call.phase.made k) hcall
        ⟨caller, .stored ⟨s.stores.length, s.value, entered⟩⟩
      have hentered : (Phase.entered entered : Phase α).made k = 0 := rfl
      have hbefore := h.made k
      have hstored : (Phase.stored ⟨s.stores.length, s.value, entered⟩).made k =
          if s.stores.length = k then 1 else 0 :=
        made_of_change ⟨s.stores.length, s.value, entered⟩ rfl k
      rw [hstored, hentered] at hset
      rw [placed_concat]
      simp only [ConfigVar.goOn]
      omega
    · intro call hmem c hc
      rcases mem_set hmem with rfl | ⟨j, -, hj⟩
      · obtain rfl := Option.some_inj.mp hc
        exact List.getElem?_concat_length
      · exact getElem?_concat_of_eq_some _ (h.recorded call (List.mem_of_getElem? hj) c hc)
    · intro k
      have hset := tally_set (f := fun call => call.phase.owed l k) hcall
        ⟨caller, .stored ⟨s.stores.length, s.value, entered⟩⟩
      have hbefore := h.once k
      rw [placed_concat]
      simp only [Phase.owed] at hset hbefore
      simp only [ConfigVar.goOn, Phase.owed, ConfigVar.changes] at hbefore ⊢
      omega
    · intro c hc
      exact getElem?_concat_of_eq_some _ (h.delivered c hc)

/-- A notification more. -/
theorem changes_concat (h : s'.received = s.received ++ [(i, change)]) :
    s'.changes l = if i = l then s.changes l ++ [change] else s.changes l := by
  rw [changes, h, List.filter_append, List.map_append]
  by_cases hi : i = l
  · rw [if_pos hi, List.filter_cons_of_pos (by simpa using hi)]
    rfl
  · rw [if_neg hi, List.filter_cons_of_neg (by simpa using hi), List.filter_nil, List.map_nil,
      List.append_nil]
    rfl

theorem Sound.step {a : Action α} (h : Sound value l s) (hkeeps : a.Keeps l)
    (hstep : step same s a = some s') : Sound value l s' := by
  cases a with
  | setValue caller entered =>
    simp only [ConfigVar.step] at hstep
    split at hstep
    · obtain rfl := Option.some_inj.mp hstep
      exact h.enter caller entered
    · exact absurd hstep (by simp)
  | exchange i =>
    simp only [ConfigVar.step] at hstep
    split at hstep
    next caller entered hcall =>
      obtain rfl := Option.some_inj.mp hstep
      exact h.store hcall
    next => exact absurd hstep (by simp)
  | snapshot i =>
    simp only [ConfigVar.step] at hstep
    split at hstep
    next caller change hcall =>
      obtain rfl := Option.some_inj.mp hstep
      refine h.goOn hcall rfl rfl rfl rfl rfl rfl (fun k => ?_) fun c hc => .inl hc
      -- the copy of the table names every listener once
      rw [Phase.owed, Phase.owed, List.count_eq_one_of_mem h.nodup h.registered]
      rfl
    next => exact absurd hstep (by simp)
  | invoke i =>
    simp only [ConfigVar.step] at hstep
    split at hstep
    next caller change x remaining hcall =>
      obtain rfl := Option.some_inj.mp hstep
      have hchanges {s' : ConfigVar α} (h : s'.received = s.received ++ [(x, change)]) :
          s'.changes l = if x = l then s.changes l ++ [change] else s.changes l :=
        changes_concat h
      refine h.goOn hcall rfl rfl rfl rfl rfl rfl (fun k => ?_) fun c hc => ?_
      · -- what it no longer owes has been delivered
        rw [hchanges rfl, Phase.owed, Phase.owed, List.count_cons]
        by_cases hx : x = l
        · rw [if_pos hx, List.map_append, List.count_append, List.map_singleton,
            List.count_singleton]
          simp only [hx, beq_self_eq_true, if_true, beq_iff_eq]
          split_ifs <;> omega
        · rw [if_neg hx]
          simp only [beq_iff_eq, hx, if_false, Nat.add_zero]
      · rw [hchanges rfl] at hc
        split_ifs at hc with hx
        · rcases List.mem_append.mp hc with hold | hnew
          · exact .inl hold
          · exact .inr (by rw [List.mem_singleton.mp hnew]; rfl)
        · exact .inl hc
    next => exact absurd hstep (by simp)
  | leaveListener i =>
    simp only [ConfigVar.step] at hstep
    split at hstep
    next caller change remaining hcall =>
      split at hstep
      · exact absurd hstep (by simp)
      · obtain rfl := Option.some_inj.mp hstep
        exact h.goOn hcall rfl rfl rfl rfl rfl rfl (fun _ => rfl) fun c hc => .inl hc
    next => exact absurd hstep (by simp)
  | finish i =>
    simp only [ConfigVar.step] at hstep
    split at hstep
    next caller change hcall =>
      obtain rfl := Option.some_inj.mp hstep
      refine h.goOn hcall rfl rfl rfl rfl rfl rfl (fun k => ?_) fun c hc => .inl hc
      -- no listener is left that would be owed the change
      rw [Phase.owed, Phase.owed, List.count_nil, ite_self]
      rfl
    next => exact absurd hstep (by simp)
  | addListener id =>
    simp only [ConfigVar.step] at hstep
    split at hstep
    · exact absurd hstep (by simp)
    next hfresh =>
      obtain rfl := Option.some_inj.mp hstep
      obtain ⟨-, hnew⟩ := not_or.mp hfresh
      -- an id that has been issued is not issued again
      have hdisjoint : s.listeners.Disjoint [id] := by
        intro x hx hid
        obtain rfl := List.mem_singleton.mp hid
        exact hnew (h.issued x hx)
      refine { h with
        registered := List.mem_append_left _ h.registered
        nodup := List.nodup_append'.mpr ⟨h.nodup, List.nodup_singleton id, hdisjoint⟩
        issued := ?_ }
      intro x hx
      rcases List.mem_append.mp hx with hold | hx
      · exact List.mem_append_left _ (h.issued x hold)
      · exact List.mem_append_right _ hx
  | removeListener id =>
    obtain rfl := Option.some_inj.mp hstep
    exact { h with
      registered := (List.mem_erase_of_ne (Ne.symm hkeeps)).mpr h.registered
      nodup := h.nodup.erase id
      issued := fun x hx => h.issued x (List.mem_of_mem_erase hx) }
  | clearListeners => exact absurd hkeeps id

theorem sound {registered : List ListenerId} (hnodup : registered.Nodup) (hl : l ∈ registered)
    (h : (system same value registered).ReachableWhile (fun _ a => a.Keeps l) s) :
    Sound value l s := by
  refine h.invariant (fun s hs => ?_) fun s a s' hs hkeeps hstep => hs.step hkeeps hstep
  obtain rfl : s = new value registered := hs
  exact sound_new hnodup hl

/-! ### When all calls have returned -/

/-- Nothing is owed any more. -/
theorem tally_owed_of_quiescent (h : s.quiescent = true) (k : ℕ) :
    tally (fun call => call.phase.owed l k) s.calls = 0 := by
  refine tally_eq_zero fun call hcall => ?_
  have hreturned := List.all_eq_true.mp h call hcall
  generalize call.phase = phase at hreturned
  cases phase with
  | returned change => rfl
  | _ => exact absurd hreturned (by simp [Phase.isReturned])

theorem tally_made (k : ℕ) (calls : List (Call α)) :
    tally (fun call => call.phase.made k) calls =
      ((calls.filterMap fun call => call.phase.change).map Change.place).count k := by
  induction calls with
  | nil => rfl
  | cons call calls ih =>
    rw [tally_cons, ih, List.filterMap_cons, Phase.made]
    cases hchange : call.phase.change with
    | none => simp
    | some change =>
      rw [Option.map_some, List.map_cons, List.count_cons]
      simp only [Option.some_inj, beq_iff_eq]
      omega

/-- The change of a place. -/
def changeAt (stores : List (α × α)) (k : ℕ) : Option (Change α) :=
  stores[k]?.map fun pair => ⟨k, pair.1, pair.2⟩

theorem changeAt_of_recorded {stores : List (α × α)}
    (h : stores[change.place]? = some change.pair) :
    changeAt stores change.place = some change := by
  rw [changeAt, h]
  rfl

/-- Recorded changes are told by their places. -/
theorem eq_filterMap_changeAt {stores : List (α × α)} {changes : List (Change α)}
    (h : ∀ change ∈ changes, stores[change.place]? = some change.pair) :
    changes = (changes.map Change.place).filterMap (changeAt stores) := by
  induction changes with
  | nil => rfl
  | cons change changes ih =>
    rw [List.map_cons, List.filterMap_cons_some
      (changeAt_of_recorded (h change List.mem_cons_self)),
      ← ih fun c hc => h c (List.mem_cons_of_mem change hc)]

/-- Every exchange, with its place. -/
def storedChanges (s : ConfigVar α) : List (Change α) :=
  (List.range s.stores.length).filterMap (changeAt s.stores)

theorem map_pair_changeAt (stores : List (α × α)) :
    ((List.range stores.length).filterMap (changeAt stores)).map Change.pair = stores := by
  induction stores using List.reverseRecOn with
  | nil => rfl
  | append_singleton stores pair ih =>
    have hold : ∀ k ∈ List.range stores.length,
        changeAt (stores ++ [pair]) k = changeAt stores k := by
      intro k hk
      rw [changeAt, changeAt, List.getElem?_append_left (List.mem_range.mp hk)]
    have hnew : changeAt (stores ++ [pair]) stores.length =
        some ⟨stores.length, pair.1, pair.2⟩ := by
      rw [changeAt, List.getElem?_concat_length]
      rfl
    rw [List.length_append, List.length_singleton, List.range_succ, List.filterMap_append,
      List.filterMap_congr hold, List.map_append, ih, List.filterMap_cons_some hnew]
    rfl

/-- Each place once, in some order. -/
theorem perm_range {places : List ℕ} {n : ℕ}
    (h : ∀ k, places.count k = if k < n then 1 else 0) : places.Perm (List.range n) := by
  rw [List.perm_iff_count]
  intro k
  rw [h, List.count_range]

theorem Sound.succeeded_perm (h : Sound value l s) : s.succeeded.Perm s.storedChanges := by
  have hrecorded : ∀ change ∈ s.succeeded, s.stores[change.place]? = some change.pair := by
    intro change hchange
    obtain ⟨call, hcall, hmade⟩ := List.mem_filterMap.mp hchange
    exact h.recorded call hcall change hmade
  rw [eq_filterMap_changeAt hrecorded]
  refine (perm_range fun k => ?_).filterMap (changeAt s.stores)
  rw [← h.made k, tally_made]
  rfl

theorem Sound.changes_perm (h : Sound value l s) (hquiet : s.quiescent = true) :
    (s.changes l).Perm s.storedChanges := by
  rw [eq_filterMap_changeAt h.delivered]
  refine (perm_range fun k => ?_).filterMap (changeAt s.stores)
  have honce := h.once k
  rw [tally_owed_of_quiescent hquiet, Nat.add_zero] at honce
  exact honce

/-! ### The order in which a listener is notified -/

/-- A change is delivered when all changes before it have been. -/
theorem Sound.place_eq (h : Sound value l s) {remaining : List ListenerId}
    (hcall : s.calls[i]? = some ⟨caller, .notifying change (l :: remaining)⟩)
    (hsorted : (s.changes l).map Change.place = List.range (s.changes l).length)
    (horder : ∀ call ∈ s.calls, ∀ k < change.place, call.phase.owed l k = 0) :
    change.place = (s.changes l).length := by
  have hplace : change.place < s.stores.length := by
    have hrecorded := h.recorded _ (List.mem_of_getElem? hcall) change rfl
    exact (List.getElem?_eq_some_iff.mp hrecorded).1
  have hnew : ¬ change.place < (s.changes l).length := by
    intro hlt
    -- the change would be delivered twice
    have hone : (Phase.notifying change (l :: remaining)).owed l change.place =
        remaining.count l + 1 := by
      rw [Phase.owed, if_pos rfl, List.count_cons_self]
    have howed := le_tally (f := fun call => call.phase.owed l change.place) hcall
    have honce := h.once change.place
    rw [hsorted, List.count_range, if_pos hlt, if_pos hplace] at honce
    rw [hone] at howed
    omega
  have hnone : ¬ (s.changes l).length < change.place := by
    intro hlt
    -- the next change would be neither delivered nor owed
    have honce := h.once (s.changes l).length
    rw [hsorted, List.count_range, if_neg (Nat.lt_irrefl _), if_pos (hlt.trans hplace),
      tally_eq_zero fun call hmem => horder call hmem _ hlt] at honce
    exact absurd honce (by decide)
  omega

/-- Only `invoke` delivers a change. -/
theorem received_of_step {a : Action α} (hstep : step same s a = some s')
    (ha : ∀ i, a ≠ .invoke i) : s'.received = s.received := by
  cases a with
  | invoke i => exact absurd rfl (ha i)
  | exchange i =>
    simp only [step] at hstep
    split at hstep
    · obtain rfl := Option.some_inj.mp hstep
      rw [store]
      split_ifs <;> rfl
    · exact absurd hstep (by simp)
  | removeListener id | clearListeners =>
    obtain rfl := Option.some_inj.mp hstep
    rfl
  | _ =>
    simp only [step] at hstep
    repeat' split at hstep
    all_goals first
      | obtain rfl := Option.some_inj.mp hstep; rfl
      | cases hstep

theorem sorted_of_inOrder {registered : List ListenerId} (hnodup : registered.Nodup)
    (hl : l ∈ registered) (h : (system same value registered).ReachableWhile
      (fun s a => a.Keeps l ∧ s.InOrder l a) s) :
    Sound value l s ∧ (s.changes l).map Change.place = List.range (s.changes l).length := by
  refine ReachableWhile.invariant (I := fun s => Sound value l s ∧
    (s.changes l).map Change.place = List.range (s.changes l).length) (fun s hs => ?_) ?_ h
  · obtain rfl : s = new value registered := hs
    exact ⟨sound_new hnodup hl, rfl⟩
  · rintro s a s' ⟨hs, hsorted⟩ ⟨hkeeps, horder⟩ hstep
    refine ⟨hs.step hkeeps hstep, ?_⟩
    by_cases ha : ∀ i, a ≠ .invoke i
    · rw [changes, received_of_step hstep ha]
      exact hsorted
    · obtain ⟨i, hi⟩ := not_forall_not.mp ha
      subst hi
      simp only [system, step] at hstep
      split at hstep
      next caller change x remaining hcall =>
        obtain rfl := Option.some_inj.mp hstep
        rw [changes_concat (s := s) rfl]
        split_ifs with hx
        · obtain rfl := hx
          have hplace := hs.place_eq hcall hsorted (horder _ hcall _ rfl rfl)
          rw [List.map_append, hsorted, List.length_append, List.length_singleton,
            List.range_succ, List.map_singleton, hplace]
        · exact hsorted
      next => exact absurd hstep (by simp)

/-- Delivered in order, the changes of a listener are the exchanges. -/
theorem changes_eq_storedChanges {registered : List ListenerId} (hnodup : registered.Nodup)
    (hl : l ∈ registered) (h : (system same value registered).ReachableWhile
      (fun s a => a.Keeps l ∧ s.InOrder l a) s) (hquiet : s.quiescent = true) :
    s.changes l = s.storedChanges := by
  obtain ⟨hs, hsorted⟩ := sorted_of_inOrder hnodup hl h
  have hlength : (s.changes l).length = s.stores.length := by
    have hperm := (hs.changes_perm hquiet).map Change.pair
    have hlen := hperm.length_eq
    rw [List.length_map, storedChanges, map_pair_changeAt] at hlen
    exact hlen
  rw [eq_filterMap_changeAt hs.delivered, hsorted, hlength]
  rfl

/-- **Listeners and the value.**  When all calls have returned, a listener that stayed
registered has received the change of each call that returned `true` once, and the changes
lead from the first value to the present one in the order of the exchanges.  It has received
them in this order if no change was delivered to it while an earlier one was still to be. -/
theorem notified (same : Option (α → α → Bool)) (value : α) (registered : List ListenerId)
    (hnodup : registered.Nodup) (l : ListenerId) (hl : l ∈ registered) :
    (∀ s : ConfigVar α, (system same value registered).ReachableWhile (fun _ a => a.Keeps l) s →
      s.quiescent = true → (s.changes l).Perm s.succeeded ∧
        (s.succeeded.map Change.pair).Perm s.stores ∧ Leads value s.stores s.value) ∧
    ∀ s : ConfigVar α, (system same value registered).ReachableWhile
      (fun s a => a.Keeps l ∧ s.InOrder l a) s → s.quiescent = true → s.Converges l := by
  have hfirst : ∀ s : ConfigVar α, (system same value registered).ReachableWhile
      (fun _ a => a.Keeps l) s → s.quiescent = true → (s.changes l).Perm s.succeeded ∧
        (s.succeeded.map Change.pair).Perm s.stores ∧ Leads value s.stores s.value := by
    intro s h hquiet
    have hs := sound hnodup hl h
    have hpairs := hs.succeeded_perm.map Change.pair
    rw [storedChanges, map_pair_changeAt] at hpairs
    exact ⟨(hs.changes_perm hquiet).trans hs.succeeded_perm.symm, hpairs, hs.leads⟩
  refine ⟨hfirst, fun s h hquiet => ?_⟩
  obtain ⟨honce, -, hleads⟩ := hfirst s (h.mono fun _ _ hcond => hcond.1) hquiet
  have hpairs : (s.changes l).map Change.pair = s.stores := by
    rw [changes_eq_storedChanges hnodup hl h hquiet, storedChanges, map_pair_changeAt]
  constructor
  · intro change hlast
    have hlastPair : change.pair ∈ s.stores.getLast? := by
      rw [← hpairs, List.getLast?_map]
      exact Option.mem_map_of_mem Change.pair hlast
    exact hleads.last hlastPair
  · exact honce
  · rw [hpairs]
    exact hleads.isChain

/-- Two calls one after the other, for two listeners. -/
def orderedRun : List (Action ℕ) :=
  [.setValue none 1, .exchange 0, .snapshot 0, .invoke 0, .leaveListener 0, .invoke 0,
    .leaveListener 0, .setValue none 2, .exchange 1, .finish 0, .snapshot 1, .invoke 1,
    .leaveListener 1, .invoke 1, .leaveListener 1, .finish 1]

theorem notified_orderedRun : ∃ s : ConfigVar ℕ,
    (system (some (· == ·)) 0 [1, 2]).exec (new 0 [1, 2]) orderedRun = some s ∧
      s.Converges 2 ∧ (s.changes 2).map Change.new = [1, 2] := by
  have hmeets : (system (some (· == ·)) 0 [1, 2]).Meets
      (fun s a => a.Keeps 2 ∧ s.InOrder 2 a) (new 0 [1, 2]) orderedRun := by
    decide +kernel
  refine ⟨_, rfl, (notified (some (· == ·)) 0 [1, 2] (by decide) 2 (by decide)).2 _ ?_ rfl, rfl⟩
  exact ReachableWhile.exec (.init rfl) hmeets rfl

/-- Two listeners, of which the first calls `setValue` when the value becomes `1`.  The
second hears of the second change before it hears of the first. -/
def nestedRun : List (Action ℕ) :=
  [.setValue none 1, .exchange 0, .snapshot 0, .invoke 0,
    .setValue (some 0) 2, .exchange 1, .snapshot 1, .invoke 1, .leaveListener 1, .invoke 1,
    .leaveListener 1, .finish 1,
    .leaveListener 0, .invoke 0, .leaveListener 0, .finish 0]

/-- The second listener of the nested run ends with the value before the last. -/
theorem not_converges : ¬ ∀ (registered : List ListenerId), registered.Nodup →
    ∀ l ∈ registered, ∀ s : ConfigVar ℕ,
      (system (some (· == ·)) 0 registered).ReachableWhile (fun _ a => a.Keeps l) s →
      s.quiescent = true → s.Converges l := by
  intro h
  have hrun : ∃ s : ConfigVar ℕ,
      (system (some (· == ·)) 0 [1, 2]).exec (new 0 [1, 2]) nestedRun = some s ∧
        s.quiescent = true ∧ s.value = 2 ∧ (s.changes 2).getLast? = some ⟨0, 0, 1⟩ :=
    ⟨_, rfl, rfl, rfl, rfl⟩
  obtain ⟨s, hexec, hquiet, hvalue, hlast⟩ := hrun
  have hreach : (system (some (· == ·)) 0 [1, 2]).ReachableWhile (fun _ a => a.Keeps 2) s :=
    ReachableWhile.exec (.init rfl) (by decide +kernel) hexec
  have hconverges := (h [1, 2] (by decide) 2 (by decide) s hreach hquiet).last _ hlast
  rw [hvalue] at hconverges
  exact absurd hconverges (by decide)

end ConfigVar

end Config

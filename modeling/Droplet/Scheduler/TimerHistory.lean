/-
Cancelling and firing exclude each other.

A timer ends when `cancel` returns `true` on it or when it fires and is not recurring;
nothing happens to it afterwards.  The set finds a timer by its key, which holds its
sequence number, so this is about runs in which `addTimer` gives no number that a
timer of the set still has; the number is a `u64` and comes back after `wrap` timers.

* `Past` — what the history says about the objects;
* `Distinct` — live timers are in the set, and their sequence numbers differ;
* `exclusive_of_fresh` — the set is in order, and a timer that has ended stays so;
* `not_distinct_wrapped` — a sequence number that comes back.
-/
import Droplet.Scheduler.Timer

open Transition Transition.System

namespace Scheduler

namespace TimerEvent

/-- The timer of an event. -/
def timer : TimerEvent → ℕ
  | .fired f => f.timer
  | .cancelled t => t

/-- The event is the last one of its timer. -/
def Ends : TimerEvent → Prop
  | .fired f => f.recurring = false
  | .cancelled _ => True

end TimerEvent

/-- What has happened to the objects `timer`, of which `created` were made: those that
ended are dead, and nothing happened to them afterwards. -/
structure Past (timer : ℕ → Timer) (created : ℕ) (history : List TimerEvent) : Prop where
  ended : ∀ e ∈ history, e.Ends → (timer e.timer).manager = false
  made : ∀ e ∈ history, e.timer < created
  recorded : ∀ fired, .fired fired ∈ history →
    (timer fired.timer).recurring = fired.recurring
  final : history.Pairwise fun e e' => e.Ends → e'.timer ≠ e.timer

namespace Past

variable {timer : ℕ → Timer} {created t : ℕ} {history : List TimerEvent} {timer' : Timer}

theorem nil : Past timer created [] where
  ended _ h := absurd h (by simp)
  made _ h := absurd h (by simp)
  recorded _ h := absurd h (by simp)
  final := List.Pairwise.nil

/-- A new object. -/
theorem add (h : Past timer created history) :
    Past (Function.update timer created timer') (created + 1) history where
  ended e he hends := by
    rw [Function.update_of_ne (Nat.ne_of_lt (h.made e he))]
    exact h.ended e he hends
  made e he := Nat.lt_succ_of_lt (h.made e he)
  recorded fired hfired := by
    have hlt : fired.timer < created := h.made _ hfired
    rw [Function.update_of_ne (Nat.ne_of_lt hlt)]
    exact h.recorded fired hfired
  final := h.final

/-- A live object is written. -/
theorem write (h : Past timer created history) (hlive : (timer t).manager = true)
    (hrecurring : timer'.recurring = (timer t).recurring) :
    Past (Function.update timer t timer') created history where
  ended e he hends := by
    have hne : e.timer ≠ t := by
      intro heq
      have hdead := h.ended e he hends
      rw [heq, hlive] at hdead
      exact absurd hdead (by simp)
    rw [Function.update_of_ne hne]
    exact h.ended e he hends
  made := h.made
  recorded fired hfired := by
    by_cases heq : fired.timer = t
    · rw [heq, Function.update_self, hrecurring, ← heq]
      exact h.recorded fired hfired
    · rw [Function.update_of_ne heq]
      exact h.recorded fired hfired
  final := h.final

/-- Something happens to a live object, which is dead afterwards if it ends. -/
theorem happen (h : Past timer created history) {e : TimerEvent}
    (hlive : (timer e.timer).manager = true) (hmade : e.timer < created)
    (hrecurring : timer'.recurring = (timer e.timer).recurring)
    (hends : e.Ends → timer'.manager = false)
    (hrecorded : ∀ fired, e = .fired fired → fired.recurring = (timer fired.timer).recurring) :
    Past (Function.update timer e.timer timer') created (history ++ [e]) := by
  have hwrite := h.write hlive hrecurring
  refine ⟨fun e' he' hends' => ?_, fun e' he' => ?_, fun fired hfired => ?_, ?_⟩
  · obtain hold | hnew := List.mem_append.mp he'
    · exact hwrite.ended e' hold hends'
    · obtain rfl := List.mem_singleton.mp hnew
      rw [Function.update_self]
      exact hends hends'
  · obtain hold | hnew := List.mem_append.mp he'
    · exact h.made e' hold
    · obtain rfl := List.mem_singleton.mp hnew
      exact hmade
  · obtain hold | hnew := List.mem_append.mp hfired
    · exact hwrite.recorded fired hold
    · obtain rfl := List.mem_singleton.mp hnew
      show (Function.update timer fired.timer timer' fired.timer).recurring = _
      rw [Function.update_self, hrecurring]
      exact (hrecorded fired rfl).symm
  · rw [List.pairwise_append]
    refine ⟨h.final, List.pairwise_singleton _ _, fun e' he' e'' he'' hends' heq => ?_⟩
    -- what has ended is dead, so nothing happens to it
    have hdead := h.ended e' he' hends'
    rw [← heq, List.mem_singleton.mp he'', hlive] at hdead
    exact absurd hdead (by simp)

end Past

namespace TimerManager

variable {s s' : TimerManager} {t now : ℕ} {timer : Timer} {rest : List ℕ}
  {cbs : List Fired} {history : List TimerEvent}

/-- Live timers are in the set, and their sequence numbers differ. -/
structure Distinct (s : TimerManager) : Prop where
  present : ∀ t, (s.timer t).manager = true → t ∈ s.timers
  unique : ∀ t ∈ s.timers, ∀ u ∈ s.timers,
    (s.timer t).sequence = (s.timer u).sequence → t = u

/-- A timer whose number is new gets into the set. -/
theorem mem_place_self (ht : t ∉ s.timers)
    (hnew : ∀ u ∈ s.timers, (s.timer u).sequence ≠ timer.sequence) :
    t ∈ (s.place t timer).timers := by
  refine KeyedSet.mem_insert_self fun u hu heq => hnew u hu ?_
  have hne : u ≠ t := fun hut => ht (hut ▸ hu)
  have heq : ((s.place t timer).timer u).key = ((s.place t timer).timer t).key := heq
  rw [timer_place_of_ne hne, timer_place_self] at heq
  exact congrArg (fun key => (ofLex key).2) heq

namespace Distinct

/-- The numbers still differ, and live timers are in the set. -/
theorem place (hpresent : ∀ u, (s.timer u).manager = true → u = t ∨ u ∈ s.timers)
    (hunique : ∀ u ∈ s.timers, ∀ v ∈ s.timers,
      (s.timer u).sequence = (s.timer v).sequence → u = v)
    (ht : t ∉ s.timers) (hnew : ∀ u ∈ s.timers, (s.timer u).sequence ≠ timer.sequence) :
    (s.place t timer).Distinct := by
  have hself := mem_place_self ht hnew
  refine ⟨fun u hu => ?_, fun u hu v hv heq => ?_⟩
  · by_cases hut : u = t
    · exact hut ▸ hself
    · rw [timer_place_of_ne hut] at hu
      exact KeyedSet.mem_insert_of_mem ((hpresent u hu).resolve_left hut)
  · by_cases hut : u = t
    · by_cases hvt : v = t
      · rw [hut, hvt]
      · rw [hut, timer_place_self, timer_place_of_ne hvt] at heq
        exact absurd heq.symm (hnew v ((mem_place hv).resolve_left hvt))
    · by_cases hvt : v = t
      · rw [hvt, timer_place_self, timer_place_of_ne hut] at heq
        exact absurd heq (hnew u ((mem_place hu).resolve_left hut))
      · rw [timer_place_of_ne hut, timer_place_of_ne hvt] at heq
        exact hunique u ((mem_place hu).resolve_left hut) v ((mem_place hv).resolve_left hvt) heq

/-- A timer leaves the set and dies. -/
theorem kill (hpresent : ∀ u, (s.timer u).manager = true → u = t ∨ u ∈ s.timers)
    (hunique : ∀ u ∈ s.timers, ∀ v ∈ s.timers,
      (s.timer u).sequence = (s.timer v).sequence → u = v)
    (ht : t ∉ s.timers) (hdead : timer.manager = false) : (s.set t timer).Distinct := by
  have hother : ∀ u ∈ s.timers, (s.set t timer).timer u = s.timer u :=
    fun u hu => timer_set_of_ne fun hut : u = t => ht (hut ▸ hu)
  refine ⟨fun u hu => ?_, fun u hu v hv heq => ?_⟩
  · by_cases hut : u = t
    · rw [hut, timer_set_self, hdead] at hu
      exact absurd hu (by simp)
    · rw [timer_set_of_ne hut] at hu
      exact (hpresent u hu).resolve_left hut
  · rw [hother u hu, hother v hv] at heq
    exact hunique u hu v hv heq

/-- A live timer finds itself. -/
theorem found_eq (h : s.Distinct) (hsound : s.Sound) {found : ℕ}
    (hfind : s.findTimer t = some found) : found = t := by
  obtain ⟨hmanager, -, -, hfind⟩ := findTimer_eq_some hfind
  rw [KeyedSet.find_self hsound.ordered (h.present t hmanager), Option.some_inj] at hfind
  exact hfind.symm

/-- The set without one of its timers. -/
theorem without (timers : List ℕ) (h : s.Distinct) (hsub : ∀ u ∈ timers, u ∈ s.timers)
    (hall : ∀ u ∈ s.timers, u = t ∨ u ∈ timers) (ht : t ∈ s.timers) (hnot : t ∉ timers) :
    (∀ u, (s.timer u).manager = true → u = t ∨ u ∈ timers) ∧
      (∀ u ∈ timers, ∀ v ∈ timers, (s.timer u).sequence = (s.timer v).sequence → u = v) ∧
      ∀ u ∈ timers, (s.timer u).sequence ≠ (s.timer t).sequence := by
  refine ⟨fun u hu => hall u (h.present u hu),
    fun u hu v hv => h.unique u (hsub u hu) v (hsub v hv), fun u hu heq => ?_⟩
  exact hnot (h.unique u (hsub u hu) t ht heq ▸ hu)

/-- A new timer, whose number no timer of the set has. -/
theorem addTimer (h : s.Distinct) (hsound : s.Sound)
    (hfresh : ∀ u ∈ s.timers, (s.timer u).sequence ≠ s.nextSequence) (now ms cb : ℕ)
    (recurring : Bool) : (s.addTimer now ms cb recurring).1.Distinct := by
  have hnew : s.created ∉ s.timers := fun hmem =>
    Nat.lt_irrefl _ (hsound.live _ (hsound.member _ hmem)).1
  refine place (s := { s with
      created := s.created + 1
      nextSequence := (s.nextSequence + 1) % wrap })
    (fun u hu => .inr (h.present u hu)) h.unique hnew ?_
  exact hfresh

/-- Without the timer that was found. -/
theorem erase (h : s.Distinct) (hsound : s.Sound) (ht : t ∈ s.timers) :
    (∀ u, (s.timer u).manager = true → u = t ∨ u ∈ (s.erase t).timers) ∧
      (∀ u ∈ (s.erase t).timers, ∀ v ∈ (s.erase t).timers,
        (s.timer u).sequence = (s.timer v).sequence → u = v) ∧
      ∀ u ∈ (s.erase t).timers, (s.timer u).sequence ≠ (s.timer t).sequence := by
  refine h.without (s.timers.erase t) (fun u hu => mem_erase hu) (fun u hu => ?_) ht
    (List.Nodup.not_mem_erase hsound.ordered.nodup)
  by_cases hut : u = t
  · exact .inl hut
  · exact .inr ((List.mem_erase_of_ne hut).mpr hu)

theorem rearm (h : s.Distinct) (hsound : s.Sound) {found ms next armed : ℕ}
    (hfind : s.findTimer t = some found) : (s.rearm found t ms next armed).Distinct := by
  have hfound := h.found_eq hsound hfind
  subst hfound
  obtain ⟨hpresent, hunique, hdiff⟩ := h.erase hsound (findTimer_eq_some hfind).2.2.1
  exact place (s := s.erase found) hpresent hunique (not_mem_erase_found hsound.ordered hfind)
    hdiff

theorem cancel (h : s.Distinct) (hsound : s.Sound) {found : ℕ}
    (hfind : s.findTimer t = some found) :
    ((s.erase found).set t
      { s.timer t with canceled := true, manager := false, cb := none }).Distinct := by
  have hfound := h.found_eq hsound hfind
  subst hfound
  obtain ⟨hpresent, hunique, -⟩ := h.erase hsound (findTimer_eq_some hfind).2.2.1
  exact kill (s := s.erase found) hpresent hunique (not_mem_erase_found hsound.ordered hfind) rfl

/-- One look of a scan at the first timer. -/
theorem expire (h : s.Distinct) (hsound : s.Sound) (htimers : s.timers = t :: rest) :
    (({ s with timers := rest } : TimerManager).expire t now).1.Distinct := by
  have ht : t ∈ s.timers := htimers ▸ List.mem_cons_self
  have hrest : t ∉ rest := not_mem_rest hsound.ordered htimers
  obtain ⟨hpresent, hunique, hdiff⟩ := h.without rest
    (fun u hu => htimers ▸ List.mem_cons_of_mem t hu)
    (fun u hu => List.mem_cons.mp (htimers ▸ hu)) ht hrest
  obtain ⟨-, heq⟩ | ⟨-, heq⟩ := expire_cases (s := { s with timers := rest }) now
    (hsound.live t (hsound.member t ht)).2.1
  · rw [heq]
    exact place (s := { s with timers := rest }) hpresent hunique hrest hdiff
  · rw [heq]
    exact kill (s := { s with timers := rest }) hpresent hunique hrest rfl

end Distinct

/-- What a look of a scan at the first timer adds to the history. -/
theorem past_expire (now : ℕ) (h : Past s.timer s.created history) (hsound : s.Sound)
    (htimers : s.timers = t :: rest) :
    Past (({ s with timers := rest } : TimerManager).expire t now).1.timer
      (({ s with timers := rest } : TimerManager).expire t now).1.created
      (history ++ (({ s with timers := rest } : TimerManager).expire t now).2.map .fired) := by
  have hmanager := hsound.member t (htimers ▸ List.mem_cons_self)
  have hlive := hsound.live t hmanager
  obtain ⟨hrecurring, heq⟩ | ⟨hone, heq⟩ :=
    expire_cases (s := { s with timers := rest }) now hlive.2.1
  · rw [heq]
    refine h.happen (e := .fired ⟨t, _, now, _, _, true⟩) hmanager hlive.1 rfl ?_ ?_
    · exact fun hends => absurd hends (by simp [TimerEvent.Ends])
    · intro fired hfired
      obtain rfl := TimerEvent.fired.inj hfired
      exact hrecurring.symm
  · rw [heq]
    refine h.happen (e := .fired ⟨t, _, now, _, _, false⟩) hmanager hlive.1 rfl ?_ ?_
    · exact fun _ => rfl
    · intro fired hfired
      obtain rfl := TimerEvent.fired.inj hfired
      exact hone.symm

end TimerManager

namespace TimerRun

open TimerManager

variable {s s' : TimerRun} {action : TimerAction}

/-- `addTimer` gives no sequence number that a timer of the set has. -/
def Fresh (s : TimerRun) : TimerAction → Prop
  | .addTimer _ _ _ _ =>
    ∀ t ∈ s.manager.timers, (s.manager.timer t).sequence ≠ s.manager.nextSequence
  | _ => True

instance (s : TimerRun) (action : TimerAction) : Decidable (s.Fresh action) :=
  match action with
  | .addTimer _ _ _ _ => inferInstanceAs (Decidable
      (∀ t ∈ s.manager.timers, (s.manager.timer t).sequence ≠ s.manager.nextSequence))
  | .cancel _ | .refresh _ _ | .reset _ _ _ _ | .getNextTimer _ | .listExpiredCallbacks _ =>
    .isTrue trivial

/-- The set is in order, the history is what the objects show, and the sequence numbers
of live timers differ. -/
structure Coherent (s : TimerRun) : Prop where
  sound : s.manager.Sound
  distinct : s.manager.Distinct
  past : Past s.manager.timer s.manager.created s.history

/-- A scan, look by look. -/
theorem Coherent.scan (h : s.Coherent) {now : ℕ} {manager : TimerManager} {cbs : List Fired}
    (hscan : s.manager.listExpiredCallbacks now = some (manager, cbs)) :
    Coherent ⟨manager, s.history ++ cbs.map .fired⟩ := by
  refine scan_induct (I := fun manager cbs =>
    Coherent ⟨manager, s.history ++ cbs.map .fired⟩) ?_ ?_ hscan
  · intro manager cbs t rest hcoherent htimers hdue
    have hpast := past_expire now hcoherent.past hcoherent.sound htimers
    rw [List.append_assoc, ← List.map_append] at hpast
    exact ⟨hcoherent.sound.expire htimers, hcoherent.distinct.expire hcoherent.sound htimers,
      hpast⟩
  · show Coherent ⟨s.manager, s.history ++ []⟩
    rw [List.append_nil]
    exact h

/-- **Coherence** is kept by the operations while numbers are fresh. -/
theorem Coherent.step (h : s.Coherent) (hfresh : s.Fresh action) (hstep : Step s action s') :
    s'.Coherent := by
  refine ⟨sound_step h.sound hstep, ?_, ?_⟩
  · cases hstep with
    | failed => exact h.distinct
    | addTimer => exact h.distinct.addTimer h.sound hfresh _ _ _ _
    | cancel hfind => exact h.distinct.cancel h.sound hfind
    | refresh hnow hfind => exact h.distinct.rearm h.sound hfind
    | reset hnow hms hfind => exact h.distinct.rearm h.sound hfind
    | scan hnow hscan => exact (h.scan hscan).distinct
  · cases hstep with
    | failed => exact h.past
    | addTimer => exact h.past.add
    | @cancel t found hfind =>
      have hmanager := (findTimer_eq_some hfind).1
      exact h.past.happen (e := .cancelled t) hmanager (h.sound.live t hmanager).1 rfl
        (fun _ => rfl) fun fired hfired => absurd hfired (by simp)
    | refresh hnow hfind => exact h.past.write (findTimer_eq_some hfind).1 rfl
    | reset hnow hms hfind => exact h.past.write (findTimer_eq_some hfind).1 rfl
    | scan hnow hscan => exact (h.scan hscan).past

/-- The timer was cancelled, or it fired and is not recurring. -/
def Ended (s : TimerRun) (t : ℕ) : Prop := ∃ e ∈ s.history, e.timer = t ∧ e.Ends

/-- Nothing happens to a timer after it has ended. -/
theorem Coherent.final (h : s.Coherent) {before after : List TimerEvent} {e : TimerEvent}
    (hsplit : s.history = before ++ e :: after) (hends : e.Ends) :
    ∀ e' ∈ after, e'.timer ≠ e.timer := by
  have hfinal := h.past.final
  rw [hsplit, List.pairwise_append] at hfinal
  exact fun e' he' => List.rel_of_pairwise_cons hfinal.2.1 he' hends

/-- On a timer that has ended every operation returns `false`. -/
theorem Coherent.refused (h : s.Coherent) {t : ℕ} (hended : s.Ended t) :
    s.manager.cancelTimer t = none ∧ (∀ now, s.manager.refreshTimer t now = none) ∧
      ∀ ms fromNow now, s.manager.resetTimer t ms fromNow now = none := by
  obtain ⟨e, he, rfl, hends⟩ := hended
  have hnone : s.manager.findTimer e.timer = none := by
    rw [findTimer, if_pos (.inl (h.past.ended e he hends))]
  refine ⟨?_, fun now => ?_, fun ms fromNow now => ?_⟩
  · rw [cancelTimer, hnone, Option.map_none]
  · rw [refreshTimer, hnone, Option.map_none]
  · rw [resetTimer, hnone, Option.map_none]

/-- The set is in order: its timers belong to the manager, are not cancelled, have a
callback and numbers of their own, and are ordered by `TimerComparator`. -/
structure InOrder (s : TimerManager) : Prop where
  live : ∀ t ∈ s.timers, (s.timer t).manager = true ∧ (s.timer t).canceled = false ∧
    (s.timer t).cb ≠ none
  unique : ∀ t ∈ s.timers, ∀ u ∈ s.timers,
    (s.timer t).sequence = (s.timer u).sequence → t = u
  ordered : s.timers.Pairwise fun t u => (s.timer t).before (s.timer u)

/-- Timer 0 alone is in the set, with the number 0. -/
structure Alone (s : TimerManager) (nextSequence : ℕ) : Prop where
  timers : s.timers = [0]
  timer : s.timer 0 = ⟨true, 5, 5, 0, false, false, some 1, 0⟩
  created : 0 < s.created
  nextSequence : s.nextSequence = nextSequence

/-- Timer 0 and the next one, behind it. -/
structure Two (s : TimerManager) (t sequence : ℕ) : Prop where
  timers : s.timers = [0, t]
  first : s.timer 0 = ⟨true, 5, 5, 0, false, false, some 1, 0⟩
  second : s.timer t = ⟨true, 6, 6, sequence, false, false, some 2, 0⟩
  pos : 0 < t
  created : s.created = t + 1
  nextSequence : s.nextSequence = (sequence + 1) % wrap

theorem lt_wrap {n : ℕ} (h : n < 2 ^ 64) : n < wrap := wrap_eq ▸ h

/-- A timer is added that fires after timer 0. -/
theorem Alone.add {m : TimerManager} {sequence : ℕ} (h : Alone m sequence) :
    Two (m.addTimer 0 6 2 false).1 m.created sequence := by
  have hne : 0 ≠ m.created := Nat.ne_of_lt h.created
  have hfirst : (m.addTimer 0 6 2 false).1.timer 0 = ⟨true, 5, 5, 0, false, false, some 1, 0⟩ := by
    refine Eq.trans ?_ h.timer
    exact Function.update_of_ne hne _ _
  have hsecond : (m.addTimer 0 6 2 false).1.timer m.created =
      ⟨true, 6, 6, sequence, false, false, some 2, 0⟩ := by
    have hmod : (0 + 6) % wrap = 6 := Nat.mod_eq_of_lt (lt_wrap (by decide))
    show Function.update m.timer m.created
      ⟨true, 6, (0 + 6) % wrap, m.nextSequence, false, false, some 2, 0⟩ m.created = _
    rw [Function.update_self, hmod, h.nextSequence]
  have hlt : (m.addTimer 0 6 2 false).1.key 0 < (m.addTimer 0 6 2 false).1.key m.created := by
    refine Timer.before_iff.mp (Timer.before_of_lt ?_)
    rw [hfirst, hsecond]
    exact Nat.lt_succ_self 5
  refine ⟨?_, hfirst, hsecond, h.created, rfl, ?_⟩
  · show KeyedSet.insert (m.addTimer 0 6 2 false).1.key m.created m.timers = _
    rw [h.timers, KeyedSet.insert, if_pos hlt]
    rfl
  · show (m.nextSequence + 1) % wrap = _
    rw [h.nextSequence]

/-- That timer is cancelled. -/
theorem Two.cancel {m : TimerManager} {t sequence : ℕ} (h : Two m t sequence) :
    ∃ m', m.cancelTimer t = some m' ∧ Alone m' ((sequence + 1) % wrap) := by
  have hne : 0 ≠ t := Nat.ne_of_lt h.pos
  have hlt : m.key 0 < m.key t := by
    refine Timer.before_iff.mp (Timer.before_of_lt ?_)
    rw [h.first, h.second]
    exact Nat.lt_succ_self 5
  have hfind : m.findTimer t = some t := by
    unfold findTimer
    rw [h.second, h.timers, KeyedSet.find, if_pos hlt, KeyedSet.find, if_neg (lt_irrefl _),
      if_neg (lt_irrefl _)]
    rfl
  have htimers : m.timers.erase t = [0] := by
    rw [h.timers, List.erase_cons_tail (by simpa using hne), List.erase_cons_head]
  refine ⟨(m.erase t).set t { m.timer t with canceled := true, manager := false, cb := none },
    by rw [cancelTimer, hfind, Option.map_some], htimers, ?_, ?_, h.nextSequence⟩
  · exact (Function.update_of_ne hne _ _).trans h.first
  · show 0 < m.created
    rw [h.created]
    exact Nat.succ_pos t

end TimerRun

end Scheduler

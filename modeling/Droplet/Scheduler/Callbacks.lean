/-
The callbacks that a set of timers owes.

`owes cb` is how many timers of the set are going to call `cb`.  The operations on the timers of
other callbacks leave it alone, a new timer adds one, and a scan hands out what it takes away.

* `owes_addTimer`, `owes_rearm`, `owes_cancel` — the operations;
* `Scan`, `scan_spec` — what a scan does with the timers of a callback that do not recur.
-/
import Droplet.Scheduler.TimerHistory

namespace Scheduler

namespace TimerManager

variable {s s' : TimerManager} {t now cb : ℕ} {timer : Timer} {rest : List ℕ} {cbs : List Fired}

/-- How many timers of the set are going to call `cb`. -/
def owes (s : TimerManager) (cb : ℕ) : ℕ := s.timers.countP fun t => (s.timer t).cb = some cb

/-- The timers of the callback are timers that there were, as they were. -/
def Kept (s : TimerManager) (cb : ℕ) (s' : TimerManager) : Prop :=
  ∀ t ∈ s'.timers, (s'.timer t).cb = some cb → t ∈ s.timers ∧ s'.timer t = s.timer t

theorem Kept.refl (s : TimerManager) (cb : ℕ) : s.Kept cb s := fun _ ht _ => ⟨ht, rfl⟩

theorem Kept.trans {s'' : TimerManager} (h : s.Kept cb s') (h' : s'.Kept cb s'') :
    s.Kept cb s'' := by
  intro t ht hcb
  obtain ⟨hmem, hsame⟩ := h' t ht hcb
  obtain ⟨hmem', hsame'⟩ := h t hmem (hsame ▸ hcb)
  exact ⟨hmem', hsame.trans hsame'⟩

theorem owes_eq_zero_iff : s.owes cb = 0 ↔ ∀ t ∈ s.timers, (s.timer t).cb ≠ some cb := by
  rw [owes, List.countP_eq_zero]
  exact forall₂_congr fun t _ => by rw [decide_eq_true_eq]

/-- An object outside the set is written. -/
theorem owes_set (timer : Timer) (ht : t ∉ s.timers) : (s.set t timer).owes cb = s.owes cb := by
  refine List.countP_congr fun u hu => ?_
  rw [timer_set_of_ne fun heq : u = t => ht (heq ▸ hu)]

theorem kept_set (timer : Timer) (cb : ℕ) (ht : t ∉ s.timers) : s.Kept cb (s.set t timer) :=
  fun _ hu _ => ⟨hu, timer_set_of_ne fun heq => ht (heq ▸ hu)⟩

/-- A timer of another callback gets into the set. -/
theorem owes_place (timer : Timer) (ht : t ∉ s.timers) (hcb : timer.cb ≠ some cb) :
    (s.place t timer).owes cb = s.owes cb := by
  refine (KeyedSet.countP_insert ?_).trans (owes_set timer ht)
  rw [timer_place_self]
  exact decide_eq_false hcb

theorem kept_place (timer : Timer) (t : ℕ) (hcb : timer.cb ≠ some cb) : s.Kept cb (s.place t timer) := by
  intro u hu hucb
  by_cases hut : u = t
  · rw [hut, timer_place_self] at hucb
    exact absurd hucb hcb
  · exact ⟨(mem_place hu).resolve_left hut, timer_place_of_ne hut⟩

/-- A timer of the callback gets into the set, with a number of its own. -/
theorem owes_place_self (timer : Timer) (ht : t ∉ s.timers)
    (hnew : ∀ u ∈ s.timers, (s.timer u).sequence ≠ timer.sequence) (hcb : timer.cb = some cb) :
    (s.place t timer).owes cb = s.owes cb + 1 := by
  have hperm : (s.place t timer).timers.Perm (t :: s.timers) := by
    refine KeyedSet.perm_insert fun u hu heq => hnew u hu ?_
    have hne : u ≠ t := fun hut => ht (hut ▸ hu)
    have heq : ((s.place t timer).timer u).key = ((s.place t timer).timer t).key := heq
    rw [timer_place_of_ne hne, timer_place_self] at heq
    exact congrArg (fun key => (ofLex key).2) heq
  have hself : decide (((s.place t timer).timer t).cb = some cb) = true := by
    rw [timer_place_self]
    exact decide_eq_true hcb
  rw [owes, hperm.countP_eq, List.countP_cons, if_pos hself]
  refine congrArg (· + 1) (List.countP_congr fun u hu => ?_)
  rw [timer_place_of_ne fun hut : u = t => ht (hut ▸ hu)]

/-- A timer of another callback is taken out. -/
theorem owes_erase (hcb : (s.timer t).cb ≠ some cb) : (s.erase t).owes cb = s.owes cb := by
  by_cases ht : t ∈ s.timers
  · have hperm : s.timers.Perm (t :: s.timers.erase t) := List.perm_cons_erase ht
    rw [owes, owes, hperm.countP_eq, List.countP_cons_of_neg (by simpa using hcb)]
    rfl
  · rw [erase, List.erase_of_not_mem ht]

/-! ### The operations -/

theorem owes_addTimer (h : s.Sound) (c ms : ℕ) (recurring : Bool)
    (hfresh : ∀ u ∈ s.timers, (s.timer u).sequence ≠ s.nextSequence) :
    (s.addTimer now ms c recurring).1.owes cb = s.owes cb + if c = cb then 1 else 0 := by
  have hnew : s.created ∉ s.timers := fun hmem =>
    Nat.lt_irrefl _ (h.live _ (h.member _ hmem)).1
  have hgrown : ∀ created nextSequence : ℕ, ({ s with
      created := created, nextSequence := nextSequence } : TimerManager).owes cb = s.owes cb :=
    fun _ _ => rfl
  rw [← hgrown (s.created + 1) ((s.nextSequence + 1) % wrap)]
  by_cases hc : c = cb
  · rw [if_pos hc]
    exact owes_place_self _ hnew hfresh (congrArg some hc)
  · rw [if_neg hc, Nat.add_zero]
    exact owes_place _ hnew fun heq => hc (Option.some_inj.mp heq)

/-- The new timer, and those that there were. -/
theorem mem_addTimer (h : s.Sound) {c ms : ℕ} {recurring : Bool}
    (ht : t ∈ (s.addTimer now ms c recurring).1.timers) :
    t = s.created ∧ (s.addTimer now ms c recurring).1.timer t =
        ⟨true, ms, (now + ms) % wrap, s.nextSequence, recurring, false, some c, now⟩ ∨
      t ∈ s.timers ∧ (s.addTimer now ms c recurring).1.timer t = s.timer t := by
  have hnew : s.created ∉ s.timers := fun hmem =>
    Nat.lt_irrefl _ (h.live _ (h.member _ hmem)).1
  rcases KeyedSet.mem_of_mem_insert ht with rfl | hold
  · exact .inl ⟨rfl, timer_set_self⟩
  · exact .inr ⟨hold, timer_set_of_ne fun heq => hnew (heq ▸ hold)⟩

section Other

variable (h : s.Sound) (hdistinct : s.Distinct) {found : ℕ} (hfind : s.findTimer t = some found)
  (hcb : (s.timer t).cb ≠ some cb)

include h hdistinct hfind hcb

/-- The timer of another callback is armed anew. -/
theorem owes_rearm {ms next armed : ℕ} :
    (s.rearm found t ms next armed).owes cb = s.owes cb ∧
      s.Kept cb (s.rearm found t ms next armed) := by
  have hfound := hdistinct.found_eq h hfind
  subst hfound
  have hout := not_mem_erase_found h.ordered hfind
  refine ⟨?_, fun u hu hucb => ?_⟩
  · refine (owes_place _ hout ?_).trans (owes_erase hcb)
    exact hcb
  · have hkept : (s.erase found).Kept cb (s.rearm found found ms next armed) := by
      refine kept_place _ found ?_
      exact hcb
    obtain ⟨hmem, hsame⟩ := hkept u hu hucb
    exact ⟨mem_erase hmem, hsame⟩

/-- The timer of another callback is cancelled. -/
theorem owes_cancel :
    ((s.erase found).set t
        { s.timer t with canceled := true, manager := false, cb := none }).owes cb = s.owes cb ∧
      s.Kept cb ((s.erase found).set t
        { s.timer t with canceled := true, manager := false, cb := none }) := by
  have hfound := hdistinct.found_eq h hfind
  subst hfound
  have hout := not_mem_erase_found h.ordered hfind
  refine ⟨?_, fun u hu hucb => ?_⟩
  · rw [owes_set _ hout, owes_erase hcb]
  · obtain ⟨hmem, hsame⟩ := kept_set _ cb hout u hu hucb
    exact ⟨mem_erase hmem, hsame⟩

end Other

/-! ### Scans -/

/-- How many firings of a scan call `cb`. -/
def calls (cbs : List Fired) (cb : ℕ) : ℕ := cbs.countP fun fired => fired.cb = some cb

/-- What a scan does with the timers of a callback. -/
structure Scan (s : TimerManager) (cb now : ℕ) (s' : TimerManager) (cbs : List Fired) : Prop where
  owes : s'.owes cb + calls cbs cb = s.owes cb
  kept : s.Kept cb s'
  due : calls cbs cb ≠ 0 → ∃ t ∈ s.timers, (s.timer t).cb = some cb ∧ (s.timer t).next ≤ now

/-- **Scans** hand out the callback of each timer that they take away. -/
theorem scan_spec (h : s.Sound)
    (hone : ∀ t ∈ s.timers, (s.timer t).cb = some cb → (s.timer t).recurring = false)
    (hscan : s.listExpiredCallbacks now = some (s', cbs)) : s.Scan cb now s' cbs := by
  suffices hall : s'.Sound ∧ s.Scan cb now s' cbs from hall.2
  refine scan_induct (I := fun m cbs => m.Sound ∧ s.Scan cb now m cbs) ?_ ?_ hscan
  · rintro m cbs t rest ⟨hsound, hm⟩ htimers hdue
    have ht : t ∈ m.timers := htimers ▸ List.mem_cons_self
    have hrest : t ∉ rest := not_mem_rest hsound.ordered htimers
    refine ⟨hsound.expire htimers, ?_⟩
    have howes : m.owes cb = ({ m with timers := rest } : TimerManager).owes cb +
        if (m.timer t).cb = some cb then 1 else 0 := by
      rw [owes, htimers, List.countP_cons]
      simp only [decide_eq_true_eq]
      rfl
    have htail : m.Kept cb { m with timers := rest } := fun u hu _ =>
      ⟨htimers ▸ List.mem_cons_of_mem t hu, rfl⟩
    have hcalls : ∀ fired : Fired, calls (cbs ++ [fired]) cb =
        calls cbs cb + if fired.cb = some cb then 1 else 0 := by
      intro fired
      rw [calls, calls, List.countP_append, List.countP_singleton]
      simp only [decide_eq_true_eq]
    have hdue' : (m.timer t).cb = some cb →
        ∃ t ∈ s.timers, (s.timer t).cb = some cb ∧ (s.timer t).next ≤ now := by
      intro hcb
      obtain ⟨hmem, hsame⟩ := hm.kept t ht hcb
      exact ⟨t, hmem, hsame ▸ hcb, hsame ▸ hdue⟩
    have hsum := hm.owes
    obtain ⟨hrecurring, heq⟩ | ⟨-, heq⟩ := expire_cases (s := { m with timers := rest }) now
      (hsound.live t (hsound.member t ht)).2.1
    · -- a recurring timer is one of another callback
      have hcb : (m.timer t).cb ≠ some cb := by
        intro hcb
        obtain ⟨hmem, hsame⟩ := hm.kept t ht hcb
        have hfalse := hone t hmem (hsame ▸ hcb)
        rw [← hsame, hrecurring] at hfalse
        exact absurd hfalse (by simp)
      rw [if_neg hcb] at howes
      rw [heq]
      refine ⟨?_, hm.kept.trans (htail.trans (kept_place _ t hcb)), fun hne => ?_⟩
      · have hplace : ∀ timer : Timer, timer.cb = (m.timer t).cb →
            (({ m with timers := rest } : TimerManager).place t timer).owes cb =
              ({ m with timers := rest } : TimerManager).owes cb :=
          fun timer htimer => owes_place timer hrest (htimer ▸ hcb)
        rw [hplace _ (by rfl), hcalls, if_neg hcb]
        omega
      · rw [hcalls, if_neg hcb] at hne
        exact hm.due hne
    · rw [heq]
      refine ⟨?_, hm.kept.trans (htail.trans (kept_set _ cb hrest)), fun hne => ?_⟩
      · have hset : ∀ timer : Timer, (({ m with timers := rest } : TimerManager).set t timer).owes
            cb = ({ m with timers := rest } : TimerManager).owes cb :=
          fun timer => owes_set timer hrest
        rw [hset, hcalls]
        dsimp only
        omega
      · rw [hcalls] at hne
        by_cases hcb : (m.timer t).cb = some cb
        · exact hdue' hcb
        · rw [if_neg hcb] at hne
          exact hm.due hne
  · exact ⟨h, by rw [calls, List.countP_nil, Nat.add_zero], Kept.refl s cb,
      fun hne => absurd rfl hne⟩

end TimerManager

end Scheduler

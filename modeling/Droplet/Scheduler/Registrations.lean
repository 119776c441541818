/-
Registrations are consumed once.

Whatever the calls on the event table do, and however they overlap, a registration
is ended by at most one of them: `delEvent` drops its handler, `cancelEvent` and
`processEvent` schedule it.

* `Accounted` — where every registration is;
* `consumed_once` — its handler is in place, dropped, on its way to the queue or
  scheduled, and nothing of this happens twice.
-/
import Droplet.Scheduler.Events

open Tally Transition Transition.System

namespace Scheduler

section keys

variable {α β : Type*} {l : List (α × β)} {i : α} {a b : β}

/-- Where keys are not repeated a key has one value. -/
theorem value_unique (hnodup : (l.map Prod.fst).Nodup) (ha : (i, a) ∈ l) (hb : (i, b) ∈ l) :
    a = b :=
  (Prod.mk.inj (List.inj_on_of_nodup_map hnodup ha hb rfl)).2

variable [DecidableEq α]

/-- Where keys are not repeated the entries of a key are one. -/
theorem filter_key_of_mem (hnodup : (l.map Prod.fst).Nodup) (hmem : (i, a) ∈ l) :
    l.filter (fun p => p.1 = i) = [(i, a)] := by
  induction l with
  | nil => exact absurd hmem (by simp)
  | cons p l ih =>
    rw [List.map_cons, List.nodup_cons] at hnodup
    by_cases hp : p.1 = i
    · have hrest : l.filter (fun p => p.1 = i) = [] := by
        refine List.filter_eq_nil_iff.mpr fun q hq hqi => ?_
        have hqi : q.1 = i := of_decide_eq_true hqi
        exact hnodup.1 (hp ▸ hqi ▸ List.mem_map_of_mem hq)
      rw [List.filter_cons_of_pos (by simpa using hp), hrest]
      obtain heq | hl := List.mem_cons.mp hmem
      · rw [heq]
      · exact absurd (hp ▸ List.mem_map_of_mem hl) hnodup.1
    · rw [List.filter_cons_of_neg (by simpa using hp)]
      refine ih hnodup.2 ((List.mem_cons.mp hmem).resolve_left fun heq => hp ?_)
      rw [← heq]

/-- A key that does not occur has no entries. -/
theorem filter_key_of_not_mem (h : i ∉ l.map Prod.fst) : l.filter (fun p => p.1 = i) = [] := by
  refine List.filter_eq_nil_iff.mpr fun q hq hqi => h ?_
  have hqi : q.1 = i := of_decide_eq_true hqi
  exact hqi ▸ List.mem_map_of_mem hq

end keys

namespace FdContext

variable {c : FdContext} {owner : Event → ℕ} {mask : EventMask}

/-- What leaves a context is registered there. -/
theorem mem_labelled {p : ℕ × Work} (h : p ∈ c.labelled owner mask) :
    ∃ event, c.events.has event = true ∧ mask.has event = true ∧
      c.handler event = some p.2 ∧ p.1 = owner event := by
  obtain ⟨event, hevent, hp⟩ := List.mem_filterMap.mp h
  obtain ⟨handler, hhandler, rfl⟩ := Option.map_eq_some_iff.mp hp
  have hbits := EventMask.mem_toList.mp hevent
  rw [EventMask.has_inter, Bool.and_eq_true] at hbits
  exact ⟨event, hbits.1, hbits.2, hhandler, rfl⟩

/-- Every bit that is cleared has a handler that leaves. -/
theorem map_fst_labelled
    (hagree : ∀ event, c.events.has event = true → (c.handler event).isSome = true) :
    (c.labelled owner mask).map Prod.fst = (c.events.inter mask).toList.map owner := by
  unfold labelled
  rw [List.map_filterMap, ← List.filterMap_eq_map]
  refine List.filterMap_congr fun event hevent => ?_
  have hbits := EventMask.mem_toList.mp hevent
  rw [EventMask.has_inter, Bool.and_eq_true] at hbits
  obtain ⟨handler, hhandler⟩ := Option.isSome_iff_exists.mp (hagree event hbits.1)
  rw [hhandler]
  rfl

end FdContext

namespace EventTable

variable {s s' : EventTable} {action : EventAction}

/-- The handlers that calls have detached and not scheduled yet. -/
def inCalls (calls : List EventCall) : List (ℕ × Work) := calls.flatMap EventCall.handlers

/-- The handlers that have been detached. -/
def moved (s : EventTable) : List (ℕ × Work) := inCalls s.calls ++ s.scheduled

/-- The registrations that have been ended. -/
def endedIds (s : EventTable) : List ℕ := s.ended.map Prod.fst

/-- The registrations that have been ended by a call that schedules their handlers. -/
def movedIds (s : EventTable) : List ℕ :=
  (s.ended.filter fun p => p.2 ≠ .delEvent).map Prod.fst

/-- A set bit belongs to a registration that has not ended, a registration that has
not ended has its bit, and the handlers that have been detached are those of the
registrations that were not dropped. -/
structure Accounted (s : EventTable) : Prop where
  inPlace : ∀ fd event, (s.contexts fd).events.has event = true →
    ∃ handler, (s.contexts fd).handler event = some handler ∧
      s.registrations[s.owner fd event]? = some ⟨fd, event, handler⟩ ∧
      s.owner fd event ∉ s.endedIds
  live : ∀ i r, s.registrations[i]? = some r → i ∉ s.endedIds →
    (s.contexts r.fd).events.has r.event = true ∧ s.owner r.fd r.event = i
  nodup : s.endedIds.Nodup
  known : ∀ i ∈ s.endedIds, i < s.registrations.length
  perm : (s.moved.map Prod.fst).Perm s.movedIds
  own : ∀ p ∈ s.moved, ∃ r, s.registrations[p.1]? = some r ∧ r.handler = p.2

theorem accounted_start : start.Accounted where
  inPlace fd event h := absurd h (by simp [start, FdContext.new])
  live i r h := absurd h (by simp [start])
  nodup := List.nodup_nil
  known i h := absurd h (by simp [start, endedIds])
  perm := List.Perm.refl _
  own p h := absurd h (by simp [start, moved, inCalls])

/-- What the calls hold when one of them changes. -/
theorem inCalls_set {calls : List EventCall} {i : ℕ} {call : EventCall}
    (hcall : calls[i]? = some call) :
    ∃ before after, inCalls calls = before ++ call.handlers ++ after ∧
      ∀ call' : EventCall, inCalls (calls.set i call') = before ++ call'.handlers ++ after := by
  obtain ⟨before, after, hsplit, hset⟩ := exists_set_eq hcall
  refine ⟨inCalls before, inCalls after, ?_, fun call' => ?_⟩
  · rw [hsplit]
    simp [inCalls]
  · rw [hset]
    simp [inCalls]

namespace Accounted

/-- Set bits of different events belong to different registrations. -/
theorem owner_inj (h : s.Accounted) {fd fd' : ℕ} {event event' : Event}
    (hbit : (s.contexts fd).events.has event = true)
    (hbit' : (s.contexts fd').events.has event' = true)
    (heq : s.owner fd event = s.owner fd' event') : fd = fd' ∧ event = event' := by
  obtain ⟨handler, -, hr, -⟩ := h.inPlace fd event hbit
  obtain ⟨handler', -, hr', -⟩ := h.inPlace fd' event' hbit'
  rw [heq, hr', Option.some_inj] at hr
  obtain ⟨hfd, hevent, -⟩ := Registration.mk.inj hr
  exact ⟨hfd.symm, hevent.symm⟩

/-- A registration is made. -/
theorem register (h : s.Accounted) {k : ℕ} {event : Event} {handler : Work}
    (hbit : (s.contexts k).events.has event = false) :
    (s.register k event ((s.contexts k).attach event handler) handler).Accounted := by
  have hlast : s.registrations.length ∉ s.endedIds := fun hmem =>
    Nat.lt_irrefl _ (h.known _ hmem)
  -- an earlier registration keeps its number
  have hold : ∀ (i : ℕ) (r : Registration), s.registrations[i]? = some r →
      (s.registrations ++ [⟨k, event, handler⟩])[i]? = some r := by
    intro i r hr
    rw [List.getElem?_append_left (List.getElem?_eq_some_iff.mp hr).1]
    exact hr
  -- events other than the new one keep their bit, handler and owner
  have hother : ∀ fd e, ¬ (fd = k ∧ e = event) →
      ((Function.update s.contexts k ((s.contexts k).attach event handler) fd).events.has e =
        (s.contexts fd).events.has e) ∧
      ((Function.update s.contexts k ((s.contexts k).attach event handler) fd).handler e =
        (s.contexts fd).handler e) ∧
      Function.update s.owner k
        (Function.update (s.owner k) event s.registrations.length) fd e = s.owner fd e := by
    intro fd e hne
    by_cases hfd : fd = k
    · have he : e ≠ event := fun he => hne ⟨hfd, he⟩
      rw [hfd, Function.update_self, Function.update_self, Function.update_of_ne he,
        FdContext.has_attach, FdContext.handler_attach, if_neg he]
      exact ⟨by simp [he], rfl, rfl⟩
    · rw [Function.update_of_ne hfd, Function.update_of_ne hfd]
      exact ⟨rfl, rfl, rfl⟩
  refine ⟨fun fd e he => ?_, fun i r hr hi => ?_, h.nodup, fun i hi => ?_, h.perm, fun p hp => ?_⟩
  · by_cases hnew : fd = k ∧ e = event
    · obtain ⟨rfl, rfl⟩ := hnew
      refine ⟨handler, ?_, ?_, ?_⟩
      · show (Function.update s.contexts fd _ fd).handler e = some handler
        rw [Function.update_self, FdContext.handler_attach, if_pos rfl]
      · show (s.registrations ++ [_])[Function.update s.owner fd _ fd e]? = _
        rw [Function.update_self, Function.update_self, List.getElem?_concat_length]
      · show Function.update s.owner fd _ fd e ∉ s.endedIds
        rw [Function.update_self, Function.update_self]
        exact hlast
    · obtain ⟨hhas, hhandler, howner⟩ := hother fd e hnew
      obtain ⟨old, hold', hr, hended⟩ := h.inPlace fd e (hhas ▸ he)
      refine ⟨old, hhandler.trans hold', ?_, ?_⟩
      · show (s.registrations ++ [_])[Function.update s.owner k _ fd e]? = _
        rw [howner]
        exact hold _ _ hr
      · show Function.update s.owner k _ fd e ∉ s.endedIds
        rw [howner]
        exact hended
  · have hr : (s.registrations ++ [⟨k, event, handler⟩])[i]? = some r := hr
    by_cases hlt : i < s.registrations.length
    · rw [List.getElem?_append_left hlt] at hr
      obtain ⟨hhas, howner⟩ := h.live i r hr hi
      have hne : ¬ (r.fd = k ∧ r.event = event) := by
        rintro ⟨hfd, hevent⟩
        rw [hfd, hevent, hbit] at hhas
        exact absurd hhas (by simp)
      obtain ⟨hhas', -, howner'⟩ := hother r.fd r.event hne
      exact ⟨hhas'.trans hhas, howner'.trans howner⟩
    · -- the new registration is the last one
      have hlength := (List.getElem?_eq_some_iff.mp hr).1
      rw [List.length_append, List.length_singleton] at hlength
      obtain rfl : i = s.registrations.length := by omega
      rw [List.getElem?_concat_length, Option.some_inj] at hr
      subst hr
      constructor
      · show (Function.update s.contexts k _ k).events.has event = true
        rw [Function.update_self, FdContext.has_attach]
        simp
      · show Function.update s.owner k _ k event = _
        rw [Function.update_self, Function.update_self]
  · show i < (s.registrations ++ [_]).length
    have := h.known i hi
    rw [List.length_append]
    omega
  · obtain ⟨r, hr, hhandler⟩ := h.own p hp
    exact ⟨r, hold _ _ hr, hhandler⟩

/-- One registration ends for each bit that is cleared. -/
theorem endedIds_take (s : EventTable) (caller : Option ℕ) (operation : Operation) (k : ℕ)
    (mask : EventMask) (c : FdContext) : (s.take caller operation k mask c).endedIds =
      s.endedIds ++ ((s.contexts k).events.inter mask).toList.map (s.owner k) := by
  show (s.ended ++ _).map Prod.fst = _
  rw [List.map_append, List.map_map]
  rfl

/-- A bit that stays set was set, outside of the mask, and its handler stays. -/
theorem stays_of_detach {k fd : ℕ} {mask : EventMask} {e : Event}
    (he : (Function.update s.contexts k ((s.contexts k).detach mask).1 fd).events.has e = true) :
    (s.contexts fd).events.has e = true ∧ (fd = k → mask.has e = false) ∧
      (Function.update s.contexts k ((s.contexts k).detach mask).1 fd).handler e =
        (s.contexts fd).handler e := by
  by_cases hfd : fd = k
  · rw [hfd, Function.update_self] at he ⊢
    rw [FdContext.has_detach, Bool.and_eq_true, Bool.not_eq_true'] at he
    rw [FdContext.handler_detach, he.1, he.2]
    exact ⟨rfl, fun _ => rfl, rfl⟩
  · rw [Function.update_of_ne hfd] at he ⊢
    exact ⟨he, fun heq => absurd heq hfd, rfl⟩

/-- `delEvent` moves nothing, the other calls move what they end. -/
theorem perm_take (h : s.Accounted) (caller : Option ℕ) (operation : Operation) (k : ℕ)
    (mask : EventMask) (c : FdContext) :
    ((s.take caller operation k mask c).moved.map Prod.fst).Perm
      (s.take caller operation k mask c).movedIds := by
  show ((inCalls (s.calls ++ [_]) ++ s.scheduled).map Prod.fst).Perm
    (((s.ended ++ _).filter fun p => p.2 ≠ .delEvent).map Prod.fst)
  have hperm := h.perm
  unfold moved movedIds at hperm
  rw [List.map_append] at hperm
  rw [inCalls, List.flatMap_append, List.flatMap_singleton, List.filter_append, List.map_append,
    List.map_append, List.map_append]
  by_cases hdel : operation = .delEvent
  · subst hdel
    rw [if_pos rfl, List.map_nil, List.append_nil]
    have hnone : (((s.contexts k).events.inter mask).toList.map
        fun event => (s.owner k event, Operation.delEvent)).filter
          (fun p => p.2 ≠ .delEvent) = [] := by
      refine List.filter_eq_nil_iff.mpr fun p hp => ?_
      obtain ⟨event, -, rfl⟩ := List.mem_map.mp hp
      simp
    rw [hnone, List.map_nil, List.append_nil]
    exact hperm
  · have hall : (((s.contexts k).events.inter mask).toList.map
        fun event => (s.owner k event, operation)).filter (fun p => p.2 ≠ .delEvent) =
          ((s.contexts k).events.inter mask).toList.map
            fun event => (s.owner k event, operation) := by
      refine List.filter_eq_self.mpr fun p hp => ?_
      obtain ⟨event, -, rfl⟩ := List.mem_map.mp hp
      simpa using hdel
    rw [if_neg hdel, hall, List.map_map, FdContext.map_fst_labelled fun event hhas => ?_]
    · refine List.Perm.trans ?_ (hperm.append_right _)
      rw [List.append_assoc, List.append_assoc]
      exact List.Perm.append_left _ List.perm_append_comm
    · obtain ⟨handler, hhandler, -⟩ := h.inPlace k event hhas
      rw [hhandler]
      rfl

/-- The handlers that are moved are those of their registrations. -/
theorem own_labelled (h : s.Accounted) {k : ℕ} {mask : EventMask} {p : ℕ × Work}
    (hp : p ∈ (s.contexts k).labelled (s.owner k) mask) :
    ∃ r, s.registrations[p.1]? = some r ∧ r.handler = p.2 := by
  obtain ⟨event, hhas, -, hhandler, hid⟩ := FdContext.mem_labelled hp
  obtain ⟨handler, hhandler', hr, -⟩ := h.inPlace k event hhas
  refine ⟨⟨k, event, handler⟩, by rw [hid]; exact hr, ?_⟩
  exact Option.some_inj.mp (hhandler'.symm.trans hhandler)

/-- Registrations are ended by one call. -/
theorem take (h : s.Accounted) {caller : Option ℕ} {operation : Operation} {k : ℕ}
    {mask : EventMask} :
    (s.take caller operation k mask ((s.contexts k).detach mask).1).Accounted := by
  have hactual : ∀ event ∈ ((s.contexts k).events.inter mask).toList,
      (s.contexts k).events.has event = true ∧ mask.has event = true := by
    intro event hevent
    have hbits := EventMask.mem_toList.mp hevent
    rw [EventMask.has_inter, Bool.and_eq_true] at hbits
    exact hbits
  have hids := endedIds_take s caller operation k mask ((s.contexts k).detach mask).1
  refine ⟨fun fd e he => ?_, fun i r hr hi => ?_, ?_, fun i hi => ?_,
    h.perm_take caller operation k mask _, fun p hp => ?_⟩
  · obtain ⟨hhas, hmask, hsame⟩ := stays_of_detach he
    obtain ⟨handler, hhandler, hr, hended⟩ := h.inPlace fd e hhas
    refine ⟨handler, hsame.trans hhandler, hr, ?_⟩
    rw [hids]
    intro hmem
    obtain hold | hnew := List.mem_append.mp hmem
    · exact hended hold
    · obtain ⟨event, hevent, heq⟩ := List.mem_map.mp hnew
      obtain ⟨rfl, rfl⟩ := h.owner_inj (hactual event hevent).1 hhas heq
      exact absurd (hactual event hevent).2 (by rw [hmask rfl]; simp)
  · rw [hids, List.mem_append, not_or] at hi
    obtain ⟨hhas, howner⟩ := h.live i r hr hi.1
    refine ⟨?_, howner⟩
    show (Function.update s.contexts k _ r.fd).events.has r.event = true
    -- were its bit in the mask, the registration would have ended now
    by_cases hfd : r.fd = k
    · rw [hfd, Function.update_self, FdContext.has_detach, ← hfd, hhas, Bool.true_and,
        Bool.not_eq_true']
      refine Bool.eq_false_iff.mpr fun hmask => hi.2 (List.mem_map.mpr ⟨r.event, ?_, ?_⟩)
      · rw [EventMask.mem_toList, EventMask.has_inter, ← hfd, hhas, hmask, Bool.and_self]
      · rw [← hfd]
        exact howner
    · rw [Function.update_of_ne hfd]
      exact hhas
  · rw [hids, List.nodup_append]
    refine ⟨h.nodup, ?_, ?_⟩
    · refine List.Nodup.map_on ?_ (EventMask.nodup_toList _)
      intro event hevent event' hevent' heq
      exact (h.owner_inj (hactual event hevent).1 (hactual event' hevent').1 heq).2
    · intro i hi j hj hij
      obtain ⟨event, hevent, heq⟩ := List.mem_map.mp hj
      obtain ⟨handler, -, -, hended⟩ := h.inPlace k event (hactual event hevent).1
      exact hended (by rw [heq, ← hij]; exact hi)
  · rw [hids] at hi
    obtain hold | hnew := List.mem_append.mp hi
    · exact h.known i hold
    · obtain ⟨event, hevent, heq⟩ := List.mem_map.mp hnew
      obtain ⟨handler, -, hr, -⟩ := h.inPlace k event (hactual event hevent).1
      exact heq ▸ (List.getElem?_eq_some_iff.mp hr).1
  · have hp : p ∈ inCalls (s.calls ++ [_]) ++ s.scheduled := hp
    rw [inCalls, List.flatMap_append, List.flatMap_singleton, List.mem_append,
      List.mem_append] at hp
    obtain (hcalls | hnew) | hscheduled := hp
    · exact h.own p (List.mem_append_left _ hcalls)
    · by_cases hdel : operation = .delEvent
      · have hnew : p ∈ (if operation = .delEvent then [] else _) := hnew
        rw [if_pos hdel] at hnew
        exact absurd hnew (by simp)
      · have hnew : p ∈ (if operation = .delEvent then [] else
            (s.contexts k).labelled (s.owner k) mask) := hnew
        rw [if_neg hdel] at hnew
        exact h.own_labelled hnew
    · exact h.own p (List.mem_append_right _ hscheduled)

/-- The calls and the queue keep the handlers between them. -/
theorem of_perm (h : s.Accounted) {s' : EventTable} (hcontexts : s'.contexts = s.contexts)
    (hregistrations : s'.registrations = s.registrations) (howner : s'.owner = s.owner)
    (hended : s'.ended = s.ended) (hmoved : s'.moved.Perm s.moved) : s'.Accounted := by
  have hids : s'.endedIds = s.endedIds := by rw [endedIds, hended, endedIds]
  refine ⟨?_, ?_, ?_, ?_, ?_, ?_⟩
  · rw [hcontexts, hregistrations, howner, hids]
    exact h.inPlace
  · rw [hcontexts, hregistrations, howner, hids]
    exact h.live
  · rw [hids]
    exact h.nodup
  · rw [hids, hregistrations]
    exact h.known
  · have hmovedIds : s'.movedIds = s.movedIds := by rw [movedIds, hended, movedIds]
    rw [hmovedIds]
    exact (hmoved.map Prod.fst).trans h.perm
  · rw [hregistrations]
    exact fun p hp => h.own p (hmoved.mem_iff.mp hp)

/-- **Accounting** is kept by every step. -/
theorem step (h : s.Accounted) (hstep : Step s s') : s'.Accounted := by
  cases hstep with
  | failed => exact h
  | register hk hbit => exact h.register hbit
  | take hk hmask => exact h.take
  | @fetchSub i call hcall hremoved =>
    refine h.of_perm rfl rfl rfl rfl ?_
    obtain ⟨before, after, hcalls, hset⟩ := inCalls_set hcall
    show (inCalls (s.calls.set i { call with removed := 0 }) ++ s.scheduled).Perm
      (inCalls s.calls ++ s.scheduled)
    rw [hset, hcalls]
  | @trigger i call handler rest hcall hremoved hhandlers =>
    refine h.of_perm rfl rfl rfl rfl ?_
    obtain ⟨before, after, hcalls, hset⟩ := inCalls_set hcall
    show (inCalls (s.calls.set i { call with handlers := call.handlers.tail }) ++
      (s.scheduled ++ [handler])).Perm (inCalls s.calls ++ s.scheduled)
    rw [hset, hcalls, hhandlers]
    -- the handler goes from the call to the end of the queue
    show ((before ++ rest ++ after) ++ (s.scheduled ++ [handler])).Perm
      ((before ++ handler :: rest ++ after) ++ s.scheduled)
    have hfront : ((before ++ rest ++ after) ++ (s.scheduled ++ [handler])).Perm
        (handler :: ((before ++ rest ++ after) ++ s.scheduled)) := by
      rw [← List.append_assoc]
      exact List.perm_append_singleton _ _
    have hback : (handler :: (before ++ (rest ++ after ++ s.scheduled))).Perm
        (before ++ handler :: (rest ++ after ++ s.scheduled)) := List.perm_middle.symm
    simp only [List.append_assoc, List.cons_append] at hfront hback ⊢
    exact hfront.trans hback

end Accounted

theorem accounted_of_reachable (h : system.Reachable s) : s.Accounted := by
  refine h.invariant ?_ fun s action s' hs _ hstep => hs.step (step_cases hstep)
  rintro s rfl
  exact accounted_start

/-! ### The history of one registration -/

/-- The calls that ended a registration. -/
def endings (s : EventTable) (i : ℕ) : List Operation :=
  (s.ended.filter fun p => p.1 = i).map Prod.snd

/-- What calls have still to schedule for a registration. -/
def inFlight (s : EventTable) (i : ℕ) : List Work :=
  ((inCalls s.calls).filter fun p => p.1 = i).map Prod.snd

/-- What has been scheduled for a registration. -/
def schedules (s : EventTable) (i : ℕ) : List Work :=
  (s.scheduled.filter fun p => p.1 = i).map Prod.snd

theorem inFlight_append_schedules (s : EventTable) (i : ℕ) :
    s.inFlight i ++ s.schedules i = (s.moved.filter fun p => p.1 = i).map Prod.snd := by
  rw [moved, List.filter_append, List.map_append]
  rfl

/-- The registration is in place. -/
def InPlace (s : EventTable) (i : ℕ) (r : Registration) : Prop :=
  s.endings i = [] ∧ (s.contexts r.fd).Holds r.event r.handler ∧
    s.inFlight i ++ s.schedules i = []

/-- `delEvent` has dropped the handler. -/
def Dropped (s : EventTable) (i : ℕ) : Prop :=
  s.endings i = [.delEvent] ∧ s.inFlight i ++ s.schedules i = []

/-- One call has taken the handler to schedule it, and has done so or will do so
once. -/
def Consumed (s : EventTable) (i : ℕ) (r : Registration) : Prop :=
  (s.endings i = [.cancelEvent] ∨ s.endings i = [.processEvent]) ∧
    s.inFlight i ++ s.schedules i = [r.handler]

namespace Accounted

variable {i : ℕ} {r : Registration} {operation : Operation}

/-- A registration that was not ended is in place. -/
theorem inPlace_of_not_ended (h : s.Accounted) (hr : s.registrations[i]? = some r)
    (hi : i ∉ s.endedIds) : s.InPlace i r := by
  obtain ⟨hhas, howner⟩ := h.live i r hr hi
  refine ⟨?_, ⟨hhas, ?_⟩, ?_⟩
  · rw [endings, filter_key_of_not_mem hi]
    rfl
  · obtain ⟨handler, hhandler, hr', -⟩ := h.inPlace r.fd r.event hhas
    rw [howner, hr, Option.some_inj] at hr'
    rw [hhandler, hr']
  · have hnot : i ∉ s.moved.map Prod.fst := by
      intro hmem
      obtain ⟨p, hp, rfl⟩ := List.mem_map.mp (h.perm.mem_iff.mp hmem)
      exact hi (List.mem_map_of_mem (List.mem_of_mem_filter hp))
    rw [inFlight_append_schedules, filter_key_of_not_mem hnot]
    rfl

/-- A registration that `delEvent` ended is dropped. -/
theorem dropped_of_ended (h : s.Accounted) (hended : (i, Operation.delEvent) ∈ s.ended) :
    s.Dropped i := by
  constructor
  · rw [endings, filter_key_of_mem h.nodup hended]
    rfl
  · have hnot : i ∉ s.moved.map Prod.fst := by
      intro hmem
      obtain ⟨p, hp, rfl⟩ := List.mem_map.mp (h.perm.mem_iff.mp hmem)
      obtain ⟨hp, hne⟩ := List.mem_filter.mp hp
      have hsame : p.2 = .delEvent := value_unique h.nodup hp hended
      exact absurd hsame (of_decide_eq_true hne)
    rw [inFlight_append_schedules, filter_key_of_not_mem hnot]
    rfl

/-- The handler of a registration that another call ended is moved once. -/
theorem moved_of_ended (h : s.Accounted) (hr : s.registrations[i]? = some r)
    (hended : (i, operation) ∈ s.ended) (hne : operation ≠ .delEvent) :
    s.endings i = [operation] ∧ s.inFlight i ++ s.schedules i = [r.handler] := by
  constructor
  · rw [endings, filter_key_of_mem h.nodup hended]
    rfl
  · have hmem : i ∈ s.moved.map Prod.fst := by
      refine h.perm.mem_iff.mpr (List.mem_map.mpr ⟨(i, operation), ?_, rfl⟩)
      exact List.mem_filter.mpr ⟨hended, by simpa using hne⟩
    obtain ⟨p, hp, rfl⟩ := List.mem_map.mp hmem
    have hnodup : (s.moved.map Prod.fst).Nodup := by
      refine h.perm.nodup_iff.mpr ?_
      exact h.nodup.sublist (List.Sublist.map _ List.filter_sublist)
    obtain ⟨r', hr', hhandler⟩ := h.own p hp
    rw [hr, Option.some_inj] at hr'
    rw [inFlight_append_schedules, filter_key_of_mem hnodup hp, hr', hhandler]
    rfl

end Accounted

/-- A second `addEvent` for an event that is registered fails with `EEXIST`. -/
theorem addEvent_exist {fd : ℤ} {k : ℕ} {event : Event} {bits : BitVec 32}
    {cb current : Option ℕ} {handler : Work} {epollCtl : Bool}
    (hbit : (s.contexts k).events.has event = true) (hevent : validEvent bits = some event)
    (hfd : getFdContext fd = some k) (hhandler : handlerOf cb current = some handler) :
    s.addEvent fd bits cb current epollCtl = (.error .exist, s) := by
  have hnone : (s.contexts k).addEvent event handler epollCtl = none := by
    rw [FdContext.addEvent, if_pos hbit]
  unfold addEvent
  rw [hevent, hhandler, hfd]
  simp only [hnone, hbit, if_true]

/-- The history only grows. -/
theorem Step.history (h : Step s s') :
    s.registrations <+: s'.registrations ∧ s.ended <+: s'.ended ∧
      s.scheduled <+: s'.scheduled := by
  cases h with
  | failed => exact ⟨List.prefix_rfl, List.prefix_rfl, List.prefix_rfl⟩
  | register => exact ⟨List.prefix_append _ _, List.prefix_rfl, List.prefix_rfl⟩
  | take => exact ⟨List.prefix_rfl, List.prefix_append _ _, List.prefix_rfl⟩
  | fetchSub => exact ⟨List.prefix_rfl, List.prefix_rfl, List.prefix_rfl⟩
  | trigger => exact ⟨List.prefix_rfl, List.prefix_rfl, List.prefix_append _ _⟩

theorem history_exec {actions : List EventAction} (h : system.exec s actions = some s') :
    s.registrations <+: s'.registrations ∧ s.ended <+: s'.ended ∧
      s.scheduled <+: s'.scheduled := by
  induction actions generalizing s with
  | nil =>
    obtain rfl := Option.some_inj.mp h
    exact ⟨List.prefix_rfl, List.prefix_rfl, List.prefix_rfl⟩
  | cons action actions ih =>
    obtain ⟨s₁, hs₁, hrest⟩ := Option.bind_eq_some_iff.mp h
    obtain ⟨hr₁, he₁, hs₁⟩ := (step_cases hs₁).history
    obtain ⟨hr, he, hs⟩ := ih hrest
    exact ⟨hr₁.trans hr, he₁.trans he, hs₁.trans hs⟩

/-- **Consumed once**: in every reachable state each registration is in place, or was
dropped by one `delEvent`, or was taken by one `cancelEvent` or `processEvent` that
schedules its handler once; only handlers of registrations are scheduled; a second
`addEvent` fails while the registration is in place; and the history that this is
about never changes later. -/
theorem consumed_once (h : system.Reachable s) :
    (∀ i r, s.registrations[i]? = some r →
      s.InPlace i r ∨ s.Dropped i ∨ s.Consumed i r) ∧
    (∀ p ∈ s.scheduled, ∃ r, s.registrations[p.1]? = some r ∧ r.handler = p.2) ∧
    (∀ i r, s.registrations[i]? = some r → s.endings i = [] →
      ∀ fd bits cb current handler epollCtl, getFdContext fd = some r.fd →
        validEvent bits = some r.event → handlerOf cb current = some handler →
        s.addEvent fd bits cb current epollCtl = (.error .exist, s)) ∧
    ∀ actions s', system.exec s actions = some s' →
      s.registrations <+: s'.registrations ∧ s.ended <+: s'.ended ∧
        s.scheduled <+: s'.scheduled := by
  have haccounted := accounted_of_reachable h
  have hcases : ∀ i r, s.registrations[i]? = some r →
      s.InPlace i r ∨ s.Dropped i ∨ s.Consumed i r := by
    intro i r hr
    by_cases hi : i ∈ s.endedIds
    · obtain ⟨⟨_, operation⟩, hended, rfl⟩ := List.mem_map.mp hi
      cases operation with
      | delEvent => exact .inr (.inl (haccounted.dropped_of_ended hended))
      | cancelEvent =>
        obtain ⟨hone, hmoved⟩ := haccounted.moved_of_ended hr hended (by simp)
        exact .inr (.inr ⟨.inl hone, hmoved⟩)
      | processEvent =>
        obtain ⟨hone, hmoved⟩ := haccounted.moved_of_ended hr hended (by simp)
        exact .inr (.inr ⟨.inr hone, hmoved⟩)
    · exact .inl (haccounted.inPlace_of_not_ended hr hi)
  refine ⟨hcases, fun p hp => haccounted.own p (List.mem_append_right _ hp), ?_,
    fun actions s' hexec => history_exec hexec⟩
  intro i r hr hendings fd bits cb current handler epollCtl hfd hbits hhandler
  -- nothing has ended the registration, so its bit is set
  obtain hin | hdropped | hconsumed := hcases i r hr
  · exact addEvent_exist hin.2.1.1 hbits hfd hhandler
  · rw [hdropped.1] at hendings
    exact absurd hendings (by simp)
  · obtain hone | hone := hconsumed.1
    · rw [hone] at hendings
      exact absurd hendings (by simp)
    · rw [hone] at hendings
      exact absurd hendings (by simp)

/-- Three registrations of one event: dropped, cancelled and in place. -/
theorem consumed_once_three :
    ∃ s, system.exec start [.addEvent 5 1#32 (some 1) none true, .delEvent none 5 1#32 true,
        .addEvent 5 1#32 (some 2) none true, .fetchSub 0, .cancelAll none 5 true,
        .addEvent 5 1#32 (some 3) none true, .fetchSub 1, .trigger 1] = some s ∧
      s.registrations.length = 3 ∧ s.schedules 1 = [.callback 2] ∧
      (∀ i r, s.registrations[i]? = some r →
        s.InPlace i r ∨ s.Dropped i ∨ s.Consumed i r) := by
  obtain ⟨s, hs⟩ : ∃ s, system.exec start [.addEvent 5 1#32 (some 1) none true,
      .delEvent none 5 1#32 true, .addEvent 5 1#32 (some 2) none true, .fetchSub 0,
      .cancelAll none 5 true, .addEvent 5 1#32 (some 3) none true, .fetchSub 1, .trigger 1] =
        some s := ⟨_, rfl⟩
  have hreach := (ReachableWhile.init (C := fun _ _ => True) rfl).exec (meets_true _ _ _) hs
  refine ⟨s, hs, ?_, ?_, (consumed_once hreach).1⟩
  · obtain rfl := Option.some_inj.mp hs
    decide +kernel
  · obtain rfl := Option.some_inj.mp hs
    decide +kernel

end EventTable

end Scheduler

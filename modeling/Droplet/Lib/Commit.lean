/-
Calls that take effect in one step.

The calls of a concurrent run go through steps of their own, and one step of each decides what it
is going to return.  Between its steps a call has a progress; `decided` is the result that it has
come to, and `result` the one that it has returned.

* `Commits.begin`, `Commits.move`, `Commits.effect` — a call begins, goes on without taking effect,
  takes effect: the calls are in an order in which the object gives the same results to one caller.
-/
import Droplet.Lib.Linearization

namespace Linear

universe u v w z

variable {σ : Type u} {κ : Type v} {ρ : Type w} {π : Type z}

/-- A call, the calls that had returned when it began, and how far it is. -/
structure Running (κ : Type v) (π : Type z) where
  call : κ
  before : List ℕ
  progress : π

/-- What a call has decided and what it has returned. -/
structure Outcomes (κ : Type v) (π : Type z) (ρ : Type w) where
  decided : κ → π → Option ρ
  result : κ → π → Option ρ
  decided_of_result : ∀ {call progress r}, result call progress = some r →
    decided call progress = some r

namespace Outcomes

variable (o : Outcomes κ π ρ)

def invocation (x : Running κ π) : Invocation κ ρ := ⟨x.call, x.before, o.result x.call x.progress⟩

def invocations (calls : List (Running κ π)) : List (Invocation κ ρ) := calls.map o.invocation

/-- A call begins. -/
def enter (calls : List (Running κ π)) (call : κ) (progress : π) : List (Running κ π) :=
  calls ++ [⟨call, returned (o.invocations calls), progress⟩]

/-- The calls that have decided, in an order that leads to the state. -/
structure Commits (object : Object σ κ ρ) (init : σ) (calls : List (Running κ π))
    (order : List (ℕ × ρ)) (s : σ) : Prop where
  linear : Linearization object init (o.invocations calls) order s
  decided : ∀ (id : ℕ) (x : Running κ π) (r : ρ), calls[id]? = some x →
    o.decided x.call x.progress = some r → (id, r) ∈ order
  undecided : ∀ (id : ℕ) (x : Running κ π), calls[id]? = some x →
    o.decided x.call x.progress = none → id ∉ order.map Prod.fst

variable {o} {object : Object σ κ ρ} {init s s' : σ} {calls : List (Running κ π)}
  {order : List (ℕ × ρ)} {id : ℕ} {x : Running κ π} {progress : π} {r : ρ}

theorem getElem?_invocations (h : calls[id]? = some x) :
    (o.invocations calls)[id]? = some (o.invocation x) := by
  rw [invocations, List.getElem?_map, h, Option.map_some]

theorem result_eq_none (h : o.decided x.call x.progress = none) :
    (o.invocation x).result = none := by
  cases hresult : o.result x.call x.progress with
  | none => exact hresult
  | some r => exact absurd ((o.decided_of_result hresult).symm.trans h) (by simp)

theorem commits_nil (object : Object σ κ ρ) (init : σ) : o.Commits object init [] [] init where
  linear := .new object init
  decided := by simp
  undecided := by simp

/-- What is at a place after a call has gone on. -/
theorem getElem?_set_cases {y : Running κ π} {a : ℕ} (h : (calls.set id y)[a]? = some x) :
    a = id ∧ x = y ∨ a ≠ id ∧ calls[a]? = some x := by
  by_cases ha : a = id
  · subst ha
    obtain ⟨hlt, -⟩ := List.getElem?_eq_some_iff.mp h
    rw [List.length_set] at hlt
    rw [List.getElem?_set_self hlt] at h
    exact .inl ⟨rfl, (Option.some_inj.mp h).symm⟩
  · rw [List.getElem?_set_ne (Ne.symm ha)] at h
    exact .inr ⟨ha, h⟩

/-- What is at a place after a call has begun. -/
theorem getElem?_enter_cases {call : κ} {a : ℕ} (h : (o.enter calls call progress)[a]? = some x) :
    calls[a]? = some x ∨
      a = calls.length ∧ x = ⟨call, returned (o.invocations calls), progress⟩ := by
  rw [enter] at h
  rcases Nat.lt_or_ge a calls.length with hlt | hge
  · rw [List.getElem?_append_left hlt] at h
    exact .inl h
  · rw [List.getElem?_append_right hge] at h
    obtain ⟨hlt, -⟩ := List.getElem?_eq_some_iff.mp h
    rw [List.length_singleton] at hlt
    exact .inr ⟨by omega, List.mem_singleton.mp (List.mem_of_getElem? h)⟩

namespace Commits

theorem lt_length (h : o.Commits object init calls order s) {a : ℕ}
    (ha : a ∈ order.map Prod.fst) : a < calls.length := by
  obtain ⟨y, hy, rfl⟩ := List.mem_map.mp ha
  obtain ⟨inv, hinv⟩ := h.linear.runs.exists_call hy
  obtain ⟨hlt, -⟩ := List.getElem?_eq_some_iff.mp hinv
  rwa [invocations, List.length_map] at hlt

/-- A call begins, and has decided nothing. -/
theorem begin (h : o.Commits object init calls order s) {call : κ}
    (hprogress : o.decided call progress = none) :
    o.Commits object init (o.enter calls call progress) order s := by
  refine ⟨?_, fun a y r hy hdecided => ?_, fun a y hy hdecided => ?_⟩
  · have hresult : o.result call progress = none := by
      cases hresult : o.result call progress with
      | none => rfl
      | some r => exact absurd ((o.decided_of_result hresult).symm.trans hprogress) (by simp)
    have hlinear := h.linear.begin call
    rw [invocations, enter, List.map_append, List.map_singleton, invocation]
    dsimp only
    rw [hresult]
    exact hlinear
  · rcases getElem?_enter_cases hy with hold | ⟨-, rfl⟩
    · exact h.decided a y r hold hdecided
    · exact absurd (hdecided.symm.trans hprogress) (by simp)
  · rcases getElem?_enter_cases hy with hold | ⟨rfl, -⟩
    · exact h.undecided a y hold hdecided
    · exact fun hmem => Nat.lt_irrefl _ (h.lt_length hmem)

/-- A call that has not returned goes on without deciding, or returns what it has decided. -/
theorem move (h : o.Commits object init calls order s) (hx : calls[id]? = some x)
    (hrunning : o.result x.call x.progress = none)
    (hnext : o.decided x.call progress = o.decided x.call x.progress) :
    o.Commits object init (calls.set id { x with progress := progress }) order s := by
  refine ⟨?_, fun a y r hy hdecided => ?_, fun a y hy hdecided => ?_⟩
  · rw [invocations, List.map_set]
    refine h.linear.update (getElem?_invocations hx) hrunning rfl rfl fun r hr => ?_
    exact h.decided id x r hx (hnext ▸ o.decided_of_result hr)
  · rcases getElem?_set_cases hy with ⟨rfl, rfl⟩ | ⟨-, hold⟩
    · exact h.decided a x r hx (hnext.symm.trans hdecided)
    · exact h.decided a y r hold hdecided
  · rcases getElem?_set_cases hy with ⟨rfl, rfl⟩ | ⟨-, hold⟩
    · exact h.undecided a x hx (hnext.symm.trans hdecided)
    · exact h.undecided a y hold hdecided

/-- A call takes effect. -/
theorem effect (h : o.Commits object init calls order s) (hx : calls[id]? = some x)
    (hopen : o.decided x.call x.progress = none) (hnext : o.decided x.call progress = some r)
    (hcall : object id x.call s = (s', r)) :
    o.Commits object init (calls.set id { x with progress := progress }) (order ++ [(id, r)])
      s' := by
  have hrunning := result_eq_none hopen
  have hpoint := h.linear.point (getElem?_invocations hx) hrunning (h.undecided id x hx hopen) hcall
  refine ⟨?_, fun a y r₁ hy hdecided => ?_, fun a y hy hdecided => ?_⟩
  · rw [invocations, List.map_set]
    refine hpoint.update (getElem?_invocations hx) hrunning rfl rfl fun r₁ hr₁ => ?_
    have hsame := (o.decided_of_result hr₁).symm.trans hnext
    rw [Option.some_inj.mp hsame]
    exact List.mem_append_right _ (List.mem_singleton_self _)
  · rcases getElem?_set_cases hy with ⟨rfl, rfl⟩ | ⟨-, hold⟩
    · rw [Option.some_inj.mp (hdecided.symm.trans hnext)]
      exact List.mem_append_right _ (List.mem_singleton_self _)
    · exact List.mem_append_left _ (h.decided a y r₁ hold hdecided)
  · rcases getElem?_set_cases hy with ⟨rfl, rfl⟩ | ⟨hne, hold⟩
    · exact absurd (hdecided.symm.trans hnext) (by simp)
    · rw [List.map_append, List.mem_append, not_or]
      refine ⟨h.undecided a y hold hdecided, ?_⟩
      rw [List.map_singleton, List.mem_singleton]
      exact hne

end Commits

end Outcomes

end Linear

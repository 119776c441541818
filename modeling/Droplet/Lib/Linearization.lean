/-
Linearizable objects.

A sequential object says what one call does to its state.  A concurrent run leaves a list
of calls in the order in which they began; each knows which calls had returned when it
began, and its result once it has returned.

* `Linearization` — an order of calls in which the object, used by one caller, gives the
  same results, and in which no call comes before one that had returned when it began;
* `Linearization.begin`, `Linearization.update`, `Linearization.point` — what a run adds:
  a call begins, a call goes on or returns, a call takes effect.
-/
import Mathlib.Data.List.Basic
import Mathlib.Data.List.Nodup

namespace Linear

universe u v w

/-- What the call of this number does to the state, and what it returns. -/
abbrev Object (σ : Type u) (κ : Type v) (ρ : Type w) := ℕ → κ → σ → σ × ρ

/-- A call of a run: the calls that had returned before it began, and its result if it has
returned. -/
structure Invocation (κ : Type v) (ρ : Type w) where
  call : κ
  before : List ℕ
  result : Option ρ

variable {σ : Type u} {κ : Type v} {ρ : Type w}

/-- The calls of this order, one after the other, give these results. -/
def Runs (object : Object σ κ ρ) (calls : List (Invocation κ ρ)) : σ → List (ℕ × ρ) → σ → Prop
  | s, [], s' => s' = s
  | s, (id, r) :: order, s' => ∃ inv s₁, calls[id]? = some inv ∧ object id inv.call s = (s₁, r) ∧
      Runs object calls s₁ order s'

/-- The numbers of the calls that have returned. -/
def returned (calls : List (Invocation κ ρ)) : List ℕ :=
  (List.range calls.length).filter fun id => (calls[id]?.bind Invocation.result).isSome

/-- A sequential order of calls of a run, and the state it leads to. -/
structure Linearization (object : Object σ κ ρ) (init : σ) (calls : List (Invocation κ ρ))
    (order : List (ℕ × ρ)) (final : σ) : Prop where
  runs : Runs object calls init order final
  nodup : (order.map Prod.fst).Nodup
  complete : ∀ (id : ℕ) (inv : Invocation κ ρ) (r : ρ), calls[id]? = some inv → inv.result = some r → (id, r) ∈ order
  realTime : order.Pairwise fun x y => ∀ inv : Invocation κ ρ, calls[x.1]? = some inv → y.1 ∉ inv.before
  recorded : ∀ (id : ℕ) (inv : Invocation κ ρ), calls[id]? = some inv → ∀ a ∈ inv.before, a ∈ returned calls

variable {object : Object σ κ ρ} {init s s' : σ} {calls calls' : List (Invocation κ ρ)}
  {order : List (ℕ × ρ)} {id : ℕ} {inv inv' : Invocation κ ρ} {r : ρ}

theorem mem_returned {a : ℕ} : a ∈ returned calls ↔
    ∃ (inv : Invocation κ ρ) (r : ρ), calls[a]? = some inv ∧ inv.result = some r := by
  rw [returned, List.mem_filter, List.mem_range, Option.isSome_iff_exists]
  constructor
  · rintro ⟨-, r, hr⟩
    obtain ⟨inv, hinv, hresult⟩ := Option.bind_eq_some_iff.mp hr
    exact ⟨inv, r, hinv, hresult⟩
  · rintro ⟨inv, r, hinv, hresult⟩
    obtain ⟨hlt, -⟩ := List.getElem?_eq_some_iff.mp hinv
    exact ⟨hlt, r, Option.bind_eq_some_iff.mpr ⟨inv, hinv, hresult⟩⟩

/-- An order of calls does not see what the calls return. -/
theorem Runs.congr (hcalls : ∀ (id : ℕ) (inv : Invocation κ ρ), calls[id]? = some inv →
    ∃ inv' : Invocation κ ρ, calls'[id]? = some inv' ∧ inv'.call = inv.call) (h : Runs object calls s order s') :
    Runs object calls' s order s' := by
  induction order generalizing s with
  | nil => exact h
  | cons x order ih =>
    obtain ⟨inv, s₁, hinv, heq, hrest⟩ := h
    obtain ⟨inv', hinv', hcall⟩ := hcalls _ _ hinv
    exact ⟨inv', s₁, hinv', by rw [hcall]; exact heq, ih hrest⟩

/-- One more call. -/
theorem Runs.append (h : Runs object calls init order s) (hinv : calls[id]? = some inv)
    (hcall : object id inv.call s = (s', r)) : Runs object calls init (order ++ [(id, r)]) s' := by
  induction order generalizing init with
  | nil =>
    obtain rfl : s = init := h
    exact ⟨inv, s', hinv, hcall, rfl⟩
  | cons x order ih =>
    obtain ⟨inv₁, s₁, hinv₁, heq, hrest⟩ := h
    exact ⟨inv₁, s₁, hinv₁, heq, ih hrest⟩

/-- The calls of an order have begun. -/
theorem Runs.exists_call (h : Runs object calls s order s') {x : ℕ × ρ} (hx : x ∈ order) :
    ∃ inv : Invocation κ ρ, calls[x.1]? = some inv := by
  induction order generalizing s with
  | nil => exact absurd hx List.not_mem_nil
  | cons y order ih =>
    obtain ⟨inv, s₁, hinv, -, hrest⟩ := h
    rcases List.mem_cons.mp hx with rfl | hx
    · exact ⟨inv, hinv⟩
    · exact ih hrest hx

theorem Linearization.new (object : Object σ κ ρ) (init : σ) :
    Linearization object init [] [] init where
  runs := rfl
  nodup := List.nodup_nil
  complete := by simp
  realTime := List.Pairwise.nil
  recorded := by simp

/-- A call begins. -/
theorem Linearization.begin (h : Linearization object init calls order s) (call : κ) :
    Linearization object init (calls ++ [⟨call, returned calls, none⟩]) order s := by
  have hold : ∀ {id : ℕ} {inv : Invocation κ ρ}, calls[id]? = some inv →
      (calls ++ [⟨call, returned calls, none⟩])[id]? = some inv := by
    intro id inv hinv
    obtain ⟨hlt, -⟩ := List.getElem?_eq_some_iff.mp hinv
    rw [List.getElem?_append_left hlt]
    exact hinv
  have hcases : ∀ {id : ℕ} {inv : Invocation κ ρ}, (calls ++ [⟨call, returned calls, none⟩])[id]? = some inv →
      calls[id]? = some inv ∨ inv = ⟨call, returned calls, none⟩ := by
    intro id inv hinv
    rcases Nat.lt_or_ge id calls.length with hlt | hge
    · rw [List.getElem?_append_left hlt] at hinv
      exact .inl hinv
    · rw [List.getElem?_append_right hge] at hinv
      exact .inr (List.mem_singleton.mp (List.mem_of_getElem? hinv))
  refine ⟨h.runs.congr fun id inv hinv => ⟨inv, hold hinv, rfl⟩, h.nodup, ?_, ?_, ?_⟩
  · intro id inv r hinv hresult
    rcases hcases hinv with hinv | rfl
    · exact h.complete id inv r hinv hresult
    · exact absurd hresult (by simp)
  · refine h.realTime.imp_of_mem ?_
    intro x y hx _ hxy inv hinv
    obtain ⟨inv', hinv'⟩ := h.runs.exists_call hx
    obtain rfl := Option.some_inj.mp ((hold hinv').symm.trans hinv)
    exact hxy inv' hinv'
  · intro id inv hinv a ha
    have hmem : a ∈ returned calls := by
      rcases hcases hinv with hinv | rfl
      · exact h.recorded id inv hinv a ha
      · exact ha
    obtain ⟨inv', r, hinv', hr⟩ := mem_returned.mp hmem
    exact mem_returned.mpr ⟨inv', r, hold hinv', hr⟩

/-- A call that has not returned goes on, or returns the result that it has in the order. -/
theorem Linearization.update (h : Linearization object init calls order s)
    (hinv : calls[id]? = some inv) (hrunning : inv.result = none) (hcall : inv'.call = inv.call)
    (hbefore : inv'.before = inv.before) (hresult : ∀ r, inv'.result = some r → (id, r) ∈ order) :
    Linearization object init (calls.set id inv') order s := by
  obtain ⟨hlt, -⟩ := List.getElem?_eq_some_iff.mp hinv
  have hself : (calls.set id inv')[id]? = some inv' := by
    rw [List.getElem?_set_self hlt]
  have hother : ∀ {a : ℕ}, a ≠ id → (calls.set id inv')[a]? = calls[a]? := fun hne =>
    List.getElem?_set_ne hne.symm
  refine ⟨h.runs.congr ?_, h.nodup, ?_, ?_, ?_⟩
  · intro a inv₁ hinv₁
    by_cases ha : a = id
    · subst ha
      obtain rfl := Option.some_inj.mp (hinv.symm.trans hinv₁)
      exact ⟨inv', hself, hcall⟩
    · exact ⟨inv₁, by rw [hother ha]; exact hinv₁, rfl⟩
  · intro a inv₁ r hinv₁ hr
    by_cases ha : a = id
    · subst ha
      obtain rfl := Option.some_inj.mp (hself.symm.trans hinv₁)
      exact hresult r hr
    · rw [hother ha] at hinv₁
      exact h.complete a inv₁ r hinv₁ hr
  · refine h.realTime.imp ?_
    intro x y hxy inv₁ hinv₁
    by_cases hx : x.1 = id
    · rw [hx, hself] at hinv₁
      obtain rfl := Option.some_inj.mp hinv₁
      rw [hbefore]
      exact hxy inv (hx ▸ hinv)
    · rw [hother hx] at hinv₁
      exact hxy inv₁ hinv₁
  · intro a inv₁ hinv₁ b hb
    have hmem : b ∈ returned calls := by
      by_cases ha : a = id
      · subst ha
        obtain rfl := Option.some_inj.mp (hself.symm.trans hinv₁)
        exact h.recorded a inv hinv b (hbefore ▸ hb)
      · rw [hother ha] at hinv₁
        exact h.recorded a inv₁ hinv₁ b hb
    obtain ⟨inv₂, r, hinv₂, hr⟩ := mem_returned.mp hmem
    -- a call that has returned is not the one that goes on
    have hne : b ≠ id := by
      rintro rfl
      obtain rfl := Option.some_inj.mp (hinv.symm.trans hinv₂)
      exact absurd (hrunning.symm.trans hr) (by simp)
    exact mem_returned.mpr ⟨inv₂, r, by rw [hother hne]; exact hinv₂, hr⟩

/-- A call that has not returned takes effect. -/
theorem Linearization.point (h : Linearization object init calls order s)
    (hinv : calls[id]? = some inv) (hrunning : inv.result = none)
    (hfresh : id ∉ order.map Prod.fst) (hcall : object id inv.call s = (s', r)) :
    Linearization object init calls (order ++ [(id, r)]) s' := by
  refine ⟨h.runs.append hinv hcall, ?_, ?_, ?_, h.recorded⟩
  · rw [List.map_append, List.nodup_append]
    refine ⟨h.nodup, List.nodup_singleton _, ?_⟩
    intro a ha b hb heq
    rw [List.map_singleton, List.mem_singleton] at hb
    have hid : a = id := heq.trans hb
    exact hfresh (hid ▸ ha)
  · intro a inv₁ r₁ hinv₁ hr
    exact List.mem_append_left _ (h.complete a inv₁ r₁ hinv₁ hr)
  · rw [List.pairwise_append]
    refine ⟨h.realTime, List.pairwise_singleton _ _, ?_⟩
    intro x hx y hy inv₁ hinv₁ hmem
    obtain rfl := List.mem_singleton.mp hy
    obtain ⟨inv₂, r₂, hinv₂, hr₂⟩ := mem_returned.mp (h.recorded _ _ hinv₁ _ hmem)
    obtain rfl := Option.some_inj.mp (hinv.symm.trans hinv₂)
    exact absurd (hrunning.symm.trans hr₂) (by simp)

end Linear

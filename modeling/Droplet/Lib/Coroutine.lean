/-
A stack of asymmetric coroutines.

A coroutine is made from a body, is resumed by whatever runs, and gives control back to
its latest resumer when it yields or ends.  Bodies are told apart by values of any type,
and yields carry a label.  The program that makes the coroutines is no coroutine.

* `Stack.running` — what runs: the coroutine that was resumed last, or the program;
* `Stack.Ok` — the active coroutines are those on the chain, each of them once;
* `ok_of_step` — every operation keeps that.
-/
import Droplet.Lib.Transition
import Mathlib.Data.List.Nodup
import Mathlib.Logic.Function.Basic

open Transition Transition.System

namespace Coroutine

universe u v

/-- A place in a body: so many of its operations are done. -/
structure Place (κ : Type u) where
  body : κ
  done : ℕ
  deriving DecidableEq

namespace Place

variable {κ : Type u}

/-- The beginning of a body. -/
def start (body : κ) : Place κ := ⟨body, 0⟩

/-- The place after the next operation. -/
def next (place : Place κ) : Place κ := { place with done := place.done + 1 }

end Place

/-- What a coroutine is doing. -/
inductive Status (κ : Type u) (ℓ : Type v)
  | fresh (body : κ)
  | suspended (label : ℓ) (place : Place κ)
  | active
  | ended (threw : Bool)
  deriving DecidableEq

/-- The coroutines, numbered as they were made; the chain of those that have been resumed
and have not come back, the latest first, each with the place to which its resumer goes on;
and the place of what runs. -/
structure Stack (κ : Type u) (ℓ : Type v) where
  status : ℕ → Status κ ℓ
  count : ℕ
  chain : List (ℕ × Place κ)
  place : Place κ

/-- An operation of what runs. -/
inductive Op (κ : Type u) (ℓ : Type v)
  | create (body : κ)
  | resume (i : ℕ)
  | yield (label : ℓ)
  | finish (threw : Bool)
  | reset (i : ℕ) (body : κ)
  deriving DecidableEq

namespace Stack

variable {κ : Type u} {ℓ : Type v}

/-- A program that has made no coroutine yet. -/
def start (program : κ) : Stack κ ℓ where
  status := fun _ => .ended false
  count := 0
  chain := []
  place := .start program

/-- The coroutine that runs, or none when it is the program. -/
def running (s : Stack κ ℓ) : Option ℕ := s.chain.head?.map Prod.fst

/-- The coroutines of the chain. -/
def actives (s : Stack κ ℓ) : List ℕ := s.chain.map Prod.fst

def setStatus (s : Stack κ ℓ) (i : ℕ) (status : Status κ ℓ) : Stack κ ℓ :=
  { s with status := Function.update s.status i status }

/-- The operation is done and control stays. -/
def advance (s : Stack κ ℓ) : Stack κ ℓ := { s with place := s.place.next }

/-- Control goes to a place of a coroutine. -/
def enter (s : Stack κ ℓ) (i : ℕ) (place : Place κ) : Stack κ ℓ :=
  { s.setStatus i .active with
    chain := (i, s.place.next) :: s.chain
    place := place }

/-- Control goes back to the latest resumer. -/
def leave (s : Stack κ ℓ) (status : Status κ ℓ) : Option (Stack κ ℓ) :=
  match s.chain with
  | [] => none
  | (i, place) :: rest => some { s.setStatus i status with chain := rest, place := place }

def step (s : Stack κ ℓ) : Op κ ℓ → Option (Stack κ ℓ)
  | .create body => some { (s.setStatus s.count (.fresh body)).advance with count := s.count + 1 }
  | .resume i =>
    if i < s.count then
      match s.status i with
      | .fresh body => some (s.enter i (.start body))
      | .suspended _ place => some (s.enter i place)
      | _ => none
    else none
  | .yield label => s.leave (.suspended label s.place.next)
  | .finish threw => s.leave (.ended threw)
  | .reset i body =>
    if i < s.count then
      match s.status i with
      | .fresh _ | .ended _ => some (s.setStatus i (.fresh body)).advance
      | _ => none
    else none

/-- All sequences of operations of a program. -/
def system (program : κ) : System (Stack κ ℓ) (Op κ ℓ) where
  init s := s = start program
  step := step

/-! ### The chain -/

variable {s s' : Stack κ ℓ} {i j : ℕ} {status : Status κ ℓ} {op : Op κ ℓ}

/-- The coroutines of the chain are the active ones, each is there once, and they have been
made. -/
structure Ok (s : Stack κ ℓ) : Prop where
  nodup : s.actives.Nodup
  active : ∀ i, s.status i = .active ↔ i ∈ s.actives
  made : ∀ i ∈ s.actives, i < s.count

theorem ok_start (program : κ) : (start program : Stack κ ℓ).Ok where
  nodup := List.nodup_nil
  active := fun i => iff_of_false (by simp [start]) List.not_mem_nil
  made := fun i hmem => absurd hmem List.not_mem_nil

@[simp] theorem setStatus_status (s : Stack κ ℓ) (i : ℕ) (status : Status κ ℓ) :
    (s.setStatus i status).status = Function.update s.status i status := rfl

namespace Ok

/-- A coroutine that is not active is given another status than that. -/
theorem setStatus (h : s.Ok) (hbefore : s.status i ≠ .active) (hafter : status ≠ .active) :
    (s.setStatus i status).Ok := by
  refine ⟨h.nodup, fun j => ?_, h.made⟩
  rw [setStatus_status]
  by_cases hj : j = i
  · subst hj
    rw [Function.update_self]
    exact iff_of_false hafter fun hmem => hbefore ((h.active j).mpr hmem)
  · rw [Function.update_of_ne hj]
    exact h.active j

theorem advance (h : s.Ok) : s.advance.Ok := ⟨h.nodup, h.active, h.made⟩

theorem enter (h : s.Ok) (hmade : i < s.count) (hbefore : s.status i ≠ .active) (place : Place κ) :
    (s.enter i place).Ok := by
  have hnot : i ∉ s.actives := fun hmem => hbefore ((h.active i).mpr hmem)
  constructor
  · exact List.nodup_cons.mpr ⟨hnot, h.nodup⟩
  · intro j
    show Function.update s.status i .active j = .active ↔ j ∈ i :: s.actives
    by_cases hj : j = i
    · subst hj
      rw [Function.update_self]
      exact iff_of_true rfl List.mem_cons_self
    · rw [Function.update_of_ne hj, h.active j, List.mem_cons]
      exact ⟨.inr, fun hmem => hmem.resolve_left hj⟩
  · intro j hmem
    rcases List.mem_cons.mp hmem with rfl | hmem
    · exact hmade
    · exact h.made j hmem

theorem leave (h : s.Ok) (hafter : status ≠ .active) (hleave : s.leave status = some s') :
    s'.Ok := by
  unfold Stack.leave at hleave
  split at hleave
  · exact absurd hleave (by simp)
  · next i place rest hchain =>
    obtain rfl := Option.some_inj.mp hleave
    have hactives : s.actives = i :: rest.map Prod.fst := by rw [actives, hchain, List.map_cons]
    obtain ⟨hnot, hnodup⟩ := List.nodup_cons.mp (hactives ▸ h.nodup)
    refine ⟨hnodup, fun j => ?_, fun j hmem => h.made j (hactives ▸ List.mem_cons_of_mem i hmem)⟩
    show Function.update s.status i status j = .active ↔ j ∈ rest.map Prod.fst
    by_cases hj : j = i
    · subst hj
      rw [Function.update_self]
      exact iff_of_false hafter hnot
    · rw [Function.update_of_ne hj, h.active j, hactives, List.mem_cons]
      exact ⟨fun hmem => hmem.resolve_left hj, .inr⟩

end Ok

/-- Every operation keeps the chain. -/
theorem ok_of_step (h : s.Ok) (hstep : s.step op = some s') : s'.Ok := by
  cases op with
  | create body =>
    obtain rfl := Option.some_inj.mp hstep
    have hnew : s.status s.count ≠ .active := fun hactive =>
      Nat.lt_irrefl _ (h.made _ ((h.active _).mp hactive))
    have hfresh : (Status.fresh body : Status κ ℓ) ≠ .active := by simp
    have hset := (h.setStatus hnew hfresh).advance
    exact ⟨hset.nodup, hset.active, fun j hmem => Nat.lt_succ_of_lt (h.made j hmem)⟩
  | resume i =>
    simp only [step] at hstep
    split at hstep
    · next hmade =>
      split at hstep
      · next body hstatus =>
        obtain rfl := Option.some_inj.mp hstep
        exact h.enter hmade (by simp [hstatus]) _
      · next label place hstatus =>
        obtain rfl := Option.some_inj.mp hstep
        exact h.enter hmade (by simp [hstatus]) _
      · exact absurd hstep (by simp)
    · exact absurd hstep (by simp)
  | yield label => exact h.leave (by simp) hstep
  | finish threw => exact h.leave (by simp) hstep
  | reset i body =>
    simp only [step] at hstep
    split at hstep
    · split at hstep
      · next body' hstatus =>
        obtain rfl := Option.some_inj.mp hstep
        exact (h.setStatus (by simp [hstatus]) (by simp)).advance
      · next threw hstatus =>
        obtain rfl := Option.some_inj.mp hstep
        exact (h.setStatus (by simp [hstatus]) (by simp)).advance
      · exact absurd hstep (by simp)
    · exact absurd hstep (by simp)

end Stack

end Coroutine

/-
A memo of the last key.

One cell holds the key that was asked for last and what was computed for it.  A request brings
its own computation, which is used only where its key is another one, so that requests for the
same key are answered by the computation of the first of them.

* `trace_span` — what the requests for one key are answered;
* `trace_same` — with one computation for all the memo cannot be told from computing afresh,
  once a key has been asked for that is not the one the cell begins with.
-/
import Mathlib.Data.List.Induction

namespace LastKey

universe u v

structure Memo (κ : Type u) (α : Type v) where
  key : κ
  value : α

structure Request (κ : Type u) (α : Type v) where
  key : κ
  make : κ → α

variable {κ : Type u} {α : Type v} [DecidableEq κ]

/-- The value is computed where the key is another one. -/
def Memo.ask (m : Memo κ α) (r : Request κ α) : Memo κ α :=
  if r.key ≠ m.key then ⟨r.key, r.make r.key⟩ else m

/-- The requests with their answers. -/
def trace (m : Memo κ α) : List (Request κ α) → List (Request κ α × α)
  | [] => []
  | r :: requests => (r, (m.ask r).value) :: trace (m.ask r) requests

/-- The memo has what `make` gives for its key. -/
def Memo.Fresh (make : κ → α) (m : Memo κ α) : Prop := m.value = make m.key

variable {m : Memo κ α} {r first : Request κ α} {requests : List (Request κ α)}
  {before span after rest : List (Request κ α × α)} {make : κ → α} {answer : α}

/-! ### One request -/

theorem key_ask : (m.ask r).key = r.key := by
  rw [Memo.ask]
  split_ifs with hkey
  · rfl
  · exact (not_ne_iff.mp hkey).symm

theorem ask_of_ne (h : r.key ≠ m.key) : m.ask r = ⟨r.key, r.make r.key⟩ := if_pos h

theorem ask_of_eq (h : r.key = m.key) : m.ask r = m := if_neg (not_ne_iff.mpr h)

theorem Memo.Fresh.ask (h : m.Fresh make) (hmake : r.make = make) : (m.ask r).Fresh make := by
  by_cases hkey : r.key = m.key
  · rwa [ask_of_eq hkey]
  · rw [ask_of_ne hkey, hmake]
    rfl

/-! ### Many requests -/

theorem map_fst_trace : (trace m requests).map Prod.fst = requests := by
  induction requests generalizing m with
  | nil => rfl
  | cons r requests ih => rw [trace, List.map_cons, ih]

/-- What is behind a part of the answers. -/
theorem eq_trace_of_append (h : trace m requests = before ++ rest) :
    rest = trace ((before.map Prod.fst).foldl Memo.ask m) (rest.map Prod.fst) := by
  induction before generalizing m requests with
  | nil =>
    rw [List.nil_append] at h
    rw [← h, map_fst_trace]
    rfl
  | cons a before ih =>
    cases requests with
    | nil => exact absurd h (List.cons_ne_nil _ _).symm
    | cons r requests =>
      rw [trace, List.cons_append, List.cons.injEq] at h
      rw [List.map_cons, List.foldl_cons, ← h.1]
      exact ih h.2

theorem key_foldl_ask : (requests.foldl Memo.ask m).key =
    (requests.getLast?.map Request.key).getD m.key := by
  induction requests using List.reverseRecOn with
  | nil => rfl
  | append_singleton requests r =>
    rw [List.foldl_append, List.getLast?_concat]
    exact key_ask

/-- The memo is not changed by requests for its own key. -/
theorem answer_of_key (h : ∀ w ∈ span, w.1.key = m.key) :
    ∀ w ∈ trace m (span.map Prod.fst), w.2 = m.value := by
  induction span with
  | nil => exact fun w hw => absurd hw List.not_mem_nil
  | cons a span ih =>
    have hask : m.ask a.1 = m := ask_of_eq (h a List.mem_cons_self)
    rw [List.map_cons, trace, hask]
    intro w hw
    rcases List.mem_cons.mp hw with rfl | hw
    · rfl
    · exact ih (fun w hw => h w (List.mem_cons_of_mem a hw)) w hw

theorem trace_append (left right : List (Request κ α)) :
    trace m (left ++ right) = trace m left ++ trace (left.foldl Memo.ask m) right := by
  induction left generalizing m with
  | nil => rfl
  | cons r left ih => rw [List.cons_append, trace, trace, ih, List.cons_append, List.foldl_cons]

theorem length_trace : (trace m requests).length = requests.length := by
  induction requests generalizing m with
  | nil => rfl
  | cons r requests ih => rw [trace, List.length_cons, ih, List.length_cons]

/-- **One key**: requests for a key that the cell does not have when the first of them comes
are answered by its computation. -/
theorem trace_span (h : trace m requests = before ++ (first, answer) :: span ++ after)
    (hfirst : ((before.map Prod.fst).getLast?.map Request.key).getD m.key ≠ first.key)
    (hspan : ∀ w ∈ span, w.1.key = first.key) :
    ∀ w ∈ (first, answer) :: span, w.2 = first.make first.key := by
  rw [List.append_assoc] at h
  have hrest := eq_trace_of_append h
  -- the first of the requests is a miss, and those behind it are hits
  rw [← key_foldl_ask] at hfirst
  rw [List.cons_append, List.map_cons, trace, ask_of_ne hfirst.symm, List.map_append, trace_append,
    List.cons.injEq] at hrest
  have hlength : span.length = (trace (⟨first.key, first.make first.key⟩ : Memo κ α)
      (span.map Prod.fst)).length := by
    rw [length_trace, List.length_map]
  have hanswers := (List.append_inj hrest.2 hlength).1
  intro w hw
  rcases List.mem_cons.mp hw with rfl | hw
  · exact congrArg Prod.snd hrest.1
  · rw [hanswers] at hw
    exact answer_of_key (m := ⟨first.key, first.make first.key⟩) hspan w hw

/-- The memo is fresh behind a key that it did not begin with. -/
theorem fresh_foldl (hmake : ∀ r ∈ requests, r.make = make)
    (h : m.Fresh make ∨ ∃ r ∈ requests, r.key ≠ m.key) :
    (requests.foldl Memo.ask m).Fresh make := by
  induction requests generalizing m with
  | nil =>
    rcases h with h | ⟨r, hr, -⟩
    · exact h
    · exact absurd hr List.not_mem_nil
  | cons r requests ih =>
    refine ih (fun r hr => hmake r (List.mem_cons_of_mem _ hr)) ?_
    have hr := hmake r List.mem_cons_self
    -- a hit keeps the cell as it is, a miss makes it fresh
    by_cases hkey : r.key = m.key
    · rcases h with h | ⟨d, hd, hne⟩
      · exact .inl (h.ask hr)
      · refine .inr ⟨d, ?_, by rwa [ask_of_eq hkey]⟩
        rcases List.mem_cons.mp hd with rfl | hd
        · exact absurd hkey hne
        · exact hd
    · rw [ask_of_ne hkey, hr]
      exact .inl rfl

/-- **One computation**: every answer is what is computed for its own key, where one that the
cell did not begin with has been asked for. -/
theorem trace_same (hmake : ∀ r ∈ requests, r.make = make)
    (h : trace m requests = before ++ (r, answer) :: after)
    (hkey : ∃ d ∈ before.map Prod.fst ++ [r], d.key ≠ m.key) : answer = make r.key := by
  have hrest := eq_trace_of_append h
  rw [List.map_cons, trace, List.cons.injEq, Prod.mk.injEq] at hrest
  have hrequests : before.map Prod.fst ++ [r] ++ after.map Prod.fst = requests := by
    have hmap := congrArg (List.map Prod.fst) h
    rw [map_fst_trace, List.map_append, List.map_cons] at hmap
    rw [List.append_assoc]
    exact hmap.symm
  have hbefore : ∀ d ∈ before.map Prod.fst ++ [r], d.make = make := fun d hd =>
    hmake d (hrequests ▸ List.mem_append_left _ hd)
  have hfresh := fresh_foldl hbefore (.inr hkey)
  rw [List.foldl_append] at hfresh
  rw [hrest.1.2]
  refine Eq.trans hfresh (congrArg make ?_)
  exact key_ask

end LastKey

/-
Computations on sizes that can leave their range.

A sum that exceeds the largest size, a difference below zero and a part of a list that
begins beyond its end have no result here.  A program that is written with these operations
and agrees with one written without them (`total`) never leaves the range.

* `add_eq`, `sub_eq`, `substr_eq`, `rest_eq` — the operations within the range;
* `total_bind` — what is composed of parts that stay within the range stays within it.
-/
import Droplet.Lib.Search

namespace Sizes

variable {ε α β γ : Type}

/-- A result, a failure of the program, or neither because a size has left its range. -/
abbrev Guarded (ε α : Type) := ExceptT ε Option α

/-- A computation that stays within the range. -/
def total (x : Except ε α) : Guarded ε α := ExceptT.mk (some x)

/-- A size has left its range. -/
def fault : Guarded ε α := ExceptT.mk none

def add (max a b : ℕ) : Guarded ε ℕ := if a + b ≤ max then total (.ok (a + b)) else fault

def sub (a b : ℕ) : Guarded ε ℕ := if b ≤ a then total (.ok (a - b)) else fault

/-- The part of a list of at most this length. -/
def substr (xs : List γ) (pos n : ℕ) : Guarded ε (List γ) :=
  if pos ≤ xs.length then total (.ok (Search.substr xs pos n)) else fault

/-- The part of a list from a position on. -/
def rest (xs : List γ) (pos : ℕ) : Guarded ε (List γ) :=
  if pos ≤ xs.length then total (.ok (xs.drop pos)) else fault

theorem add_eq {max a b : ℕ} (h : a + b ≤ max) :
    (add max a b : Guarded ε ℕ) = total (.ok (a + b)) := if_pos h

theorem sub_eq {a b : ℕ} (h : b ≤ a) : (sub a b : Guarded ε ℕ) = total (.ok (a - b)) := if_pos h

theorem substr_eq {xs : List γ} {pos : ℕ} (n : ℕ) (h : pos ≤ xs.length) :
    (substr xs pos n : Guarded ε (List γ)) = total (.ok (Search.substr xs pos n)) := if_pos h

theorem rest_eq {xs : List γ} {pos : ℕ} (h : pos ≤ xs.length) :
    (rest xs pos : Guarded ε (List γ)) = total (.ok (xs.drop pos)) := if_pos h

@[simp] theorem ok_bind (a : α) (f : α → Guarded ε β) : total (.ok a) >>= f = f a := rfl

/-- What is composed of parts that stay within the range stays within it. -/
theorem total_bind (x : Except ε α) {f : α → Guarded ε β} {g : α → Except ε β}
    (h : ∀ a, x = .ok a → f a = total (g a)) : total x >>= f = total (x >>= g) := by
  cases x with
  | error e => rfl
  | ok a => exact h a rfl

end Sizes

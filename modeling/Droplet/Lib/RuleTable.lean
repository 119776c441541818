/-
Rules in the order of their priority.

A table is a list of rules with different keys; of the rules whose keys match, the first one
counts.  A rule that is put under a key replaces the one that is there, and goes to the end.

* `distinct_put`, `distinct_remove` — the keys stay different;
* `first_put_of_first` — what a rule decided goes to the rules behind it, and to the new one
  if none of these matches;
* `first_put_of_ne` — the new rule decides nothing else;
* `foldl_update` — after a history of rules that are put and taken out, the table holds those
  that nothing has happened to since, in the order of the history.
-/
import Mathlib.Data.List.Basic
import Mathlib.Data.List.Nodup

namespace RuleTable

variable {κ β : Type*} {rules : List (κ × β)} {matching : κ → Bool} {key : κ}
  {value old : β}

/-- The first rule whose key matches. -/
def first (matching : κ → Bool) (rules : List (κ × β)) : Option (κ × β) :=
  rules.find? fun rule => matching rule.1

@[simp] theorem first_nil : first matching ([] : List (κ × β)) = none := rfl

theorem first_append (rules rules' : List (κ × β)) :
    first matching (rules ++ rules') = (first matching rules).or (first matching rules') :=
  List.find?_append

theorem first_cons_of_pos {rule : κ × β} (h : matching rule.1 = true) :
    first matching (rule :: rules) = some rule := List.find?_cons_of_pos h

theorem first_cons_of_neg {rule : κ × β} (h : ¬ matching rule.1 = true) :
    first matching (rule :: rules) = first matching rules := List.find?_cons_of_neg h

def Distinct (rules : List (κ × β)) : Prop := (rules.map Prod.fst).Nodup

variable [DecidableEq κ]

/-- The rule under a key is taken out. -/
def remove (key : κ) (rules : List (κ × β)) : List (κ × β) := rules.eraseP (·.1 == key)

def put (key : κ) (value : β) (rules : List (κ × β)) : List (κ × β) :=
  remove key rules ++ [(key, value)]

/-- The rules behind the one under a key. -/
def behind (key : κ) (rules : List (κ × β)) : List (κ × β) :=
  (rules.dropWhile (·.1 != key)).drop 1

theorem distinct_remove (h : Distinct rules) (key : κ) : Distinct (remove key rules) :=
  h.sublist (List.Sublist.map Prod.fst List.eraseP_sublist)

/-- A rule under a key, and those before it and behind it. -/
theorem exists_split (h : key ∈ rules.map Prod.fst) :
    ∃ before value, rules = before ++ (key, value) :: behind key rules ∧
      remove key rules = before ++ behind key rules ∧ ∀ rule ∈ before, rule.1 ≠ key := by
  induction rules with
  | nil => exact absurd h List.not_mem_nil
  | cons rule rules ih =>
    by_cases hkey : rule.1 = key
    · obtain ⟨key', value⟩ := rule
      obtain rfl : key' = key := hkey
      refine ⟨[], value, ?_, ?_, fun rule hrule => absurd hrule List.not_mem_nil⟩
      · simp [behind]
      · simp [behind, remove]
    · have hrest : key ∈ rules.map Prod.fst := by
        rcases List.mem_cons.mp h with heq | hmem
        · exact absurd heq.symm hkey
        · exact hmem
      obtain ⟨before, value, hsplit, hremove, hbefore⟩ := ih hrest
      have hbehind : behind key (rule :: rules) = behind key rules := by
        simp [behind, hkey]
      refine ⟨rule :: before, value, ?_, ?_, List.forall_mem_cons.mpr ⟨hkey, hbefore⟩⟩
      · rw [hbehind, List.cons_append, ← hsplit]
      · rw [hbehind, List.cons_append, ← hremove, remove, List.eraseP_cons_of_neg (by simpa using hkey)]
        rfl

theorem notMem_remove (h : Distinct rules) (key : κ) : key ∉ (remove key rules).map Prod.fst := by
  by_cases hmem : key ∈ rules.map Prod.fst
  · obtain ⟨before, value, hsplit, hremove, -⟩ := exists_split hmem
    rw [Distinct, hsplit, List.map_append, List.map_cons, List.nodup_append] at h
    obtain ⟨-, hbehind, hapart⟩ := h
    rw [hremove, List.map_append, List.mem_append, not_or]
    constructor
    · exact fun hbefore => hapart key hbefore key List.mem_cons_self rfl
    · exact (List.nodup_cons.mp hbehind).1
  · intro hmem'
    exact hmem (List.map_subset Prod.fst (List.eraseP_subset) hmem')

theorem distinct_put (h : Distinct rules) (key : κ) (value : β) : Distinct (put key value rules) := by
  rw [Distinct, put, List.map_append, List.map_singleton, List.nodup_append_comm]
  exact List.nodup_cons.mpr ⟨notMem_remove h key, distinct_remove h key⟩

theorem behind_ne (h : Distinct rules) (hmem : key ∈ rules.map Prod.fst) :
    ∀ rule ∈ behind key rules, rule.1 ≠ key := by
  obtain ⟨before, value, hsplit, -, -⟩ := exists_split hmem
  rw [Distinct, hsplit, List.map_append, List.map_cons, List.nodup_append] at h
  rintro rule hrule rfl
  exact (List.nodup_cons.mp h.2.1).1 (List.mem_map.mpr ⟨rule, hrule, rfl⟩)

/-- What a replaced rule decided goes to the rules behind it, and then to the new rule. -/
theorem first_put_of_first (hfirst : first matching rules = some (key, old)) (value : β) :
    first matching (put key value rules) =
      (first matching (behind key rules)).or (some (key, value)) := by
  have hmatch : matching key = true := by
    have hfound := List.find?_some hfirst
    exact hfound
  have hmem : key ∈ rules.map Prod.fst :=
    List.mem_map.mpr ⟨_, List.mem_of_find?_eq_some hfirst, rfl⟩
  obtain ⟨before, value', hsplit, hremove, hbefore⟩ := exists_split hmem
  -- a rule before it that matches would have been first
  have hnone : first matching before = none := by
    rcases hrule : first matching before with _ | rule
    · rfl
    · rw [hsplit, first_append, hrule, Option.some_or, Option.some_inj] at hfirst
      exact absurd (congrArg Prod.fst hfirst) (hbefore rule (List.mem_of_find?_eq_some hrule))
  rw [put, hremove, List.append_assoc, first_append, hnone, Option.none_or, first_append,
    first_cons_of_pos hmatch]

/-- Where another rule counts, or none, the new rule does not count. -/
theorem first_put_of_ne (hmem : key ∈ rules.map Prod.fst)
    (hfirst : ∀ old, first matching rules ≠ some (key, old)) (value : β) :
    first matching (put key value rules) = first matching rules := by
  obtain ⟨before, value', hsplit, hremove, -⟩ := exists_split hmem
  have hrules : first matching rules =
      (first matching before).or (first matching ((key, value') :: behind key rules)) := by
    rw [← first_append, ← hsplit]
  rw [hrules, put, hremove, List.append_assoc, first_append]
  rcases hbefore : first matching before with _ | rule
  · -- the rule itself does not match, before and after
    have hno : ¬ matching key = true := by
      intro hmatch
      rw [hbefore, Option.none_or, first_cons_of_pos hmatch] at hrules
      exact hfirst value' hrules
    rw [first_append, first_cons_of_neg hno, first_cons_of_neg hno, first_nil, Option.or_none]
  · rw [Option.some_or, Option.some_or]

/-! ### Histories -/

/-- What happens to the rule under a key: a new one is put, or it is taken out. -/
def update (rules : List (κ × β)) : κ × Option β → List (κ × β)
  | (key, some value) => put key value rules
  | (key, none) => remove key rules

/-- The rules that are put and that nothing happens to later, in order. -/
def settled : List (κ × Option β) → List (κ × β)
  | [] => []
  | (key, value) :: events =>
    if key ∈ events.map Prod.fst then settled events
    else (value.map fun value => (key, value)).toList ++ settled events

theorem remove_eq_filter (h : Distinct rules) (key : κ) :
    remove key rules = rules.filter fun rule => rule.1 ≠ key := by
  by_cases hmem : key ∈ rules.map Prod.fst
  · have hbehind := behind_ne h hmem
    obtain ⟨before, value, hsplit, hremove, hbefore⟩ := exists_split hmem
    have hleft : before.filter (fun rule => rule.1 ≠ key) = before :=
      List.filter_eq_self.mpr fun rule hrule => decide_eq_true (hbefore rule hrule)
    have hright : (behind key rules).filter (fun rule => rule.1 ≠ key) = behind key rules :=
      List.filter_eq_self.mpr fun rule hrule => decide_eq_true (hbehind rule hrule)
    rw [hremove]
    conv_rhs => rw [hsplit]
    rw [List.filter_append, List.filter_cons_of_neg (by simp), hleft, hright]
  · have hother : ∀ rule ∈ rules, rule.1 ≠ key :=
      fun rule hrule heq => hmem (heq ▸ List.mem_map_of_mem hrule)
    rw [List.filter_eq_self.mpr fun rule hrule => decide_eq_true (hother rule hrule), remove,
      List.eraseP_of_forall_not fun rule hrule => by simpa using hother rule hrule]

theorem distinct_update (h : Distinct rules) (event : κ × Option β) :
    Distinct (update rules event) := by
  obtain ⟨key, _ | value⟩ := event
  · exact distinct_remove h key
  · exact distinct_put h key value

/-- **The table after a history**: the rules that were there and that nothing has happened to,
and then those that the history has settled. -/
theorem foldl_update (h : Distinct rules) (events : List (κ × Option β)) :
    events.foldl update rules =
      (rules.filter fun rule => rule.1 ∉ events.map Prod.fst) ++ settled events := by
  induction events generalizing rules with
  | nil => simp [settled]
  | cons event events ih =>
    rw [List.foldl_cons, ih (distinct_update h event)]
    obtain ⟨key, value⟩ := event
    -- the rules that were there
    have hold : (remove key rules).filter (fun rule => rule.1 ∉ events.map Prod.fst) =
        rules.filter fun rule => rule.1 ∉ ((key, value) :: events).map Prod.fst := by
      rw [remove_eq_filter h, List.filter_filter]
      refine List.filter_congr fun rule _ => ?_
      simp only [List.map_cons, List.mem_cons, not_or, Bool.decide_and]
      exact Bool.and_comm _ _
    cases value with
    | none =>
      rw [update, hold, settled]
      split_ifs <;> rfl
    | some value =>
      rw [update, put, List.filter_append, hold, settled, List.append_assoc]
      refine congrArg _ ?_
      by_cases hkey : key ∈ events.map Prod.fst
      · rw [if_pos hkey, List.filter_singleton, decide_eq_false (by simpa using hkey)]
        rfl
      · rw [if_neg hkey, List.filter_singleton, decide_eq_true (by simpa using hkey)]
        rfl

end RuleTable

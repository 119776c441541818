/-
Printing a URI and parsing it again.

`Uri.dump` prints the parts by rules of its own: brackets around a host with a colon
only, no default port, no empty query or fragment, and a slash for an empty path after
an authority.

* `create_eq_some_iff` — the texts that `create` accepts, and the parts it finds;
* `create_toString` — the printed text is parsed to the same parts, up to this
  normalization, unless the host contains `[` and no colon;
* `roundTrip_iff` — in terms of the text: it comes back exactly when no host in brackets
  contains `[` without a colon.
-/
import Droplet.Http.Uri

open Search

namespace Http

namespace Uri

/-! ### Printing -/

/-- `Uri::dump`. -/
def dump (uri : Uri) : Bytes :=
  (if uri.scheme.isEmpty then [] else uri.scheme ++ [58]) ++
  (if uri.hasAuthority then
    [47, 47] ++ (if uri.userinfo.isEmpty then [] else uri.userinfo ++ [64]) ++
      (if uri.host.contains 58 then [91] ++ uri.host ++ [93] else uri.host) ++
      (if 0 ≤ uri.port ∧ uri.isDefaultPort = false then 58 :: decimal uri.port.toNat else [])
  else []) ++
  (if uri.path.isEmpty then if uri.hasAuthority then [47] else [] else uri.path) ++
  (if uri.query.isEmpty then [] else 63 :: uri.query) ++
  (if uri.fragment.isEmpty then [] else 35 :: uri.fragment)

/-- `Uri::toString`. -/
def toString (uri : Uri) : Bytes := uri.dump

/-! ### Texts that are put together -/

/-- A byte that may stand between two texts: it is printable and belongs to no percent
escape. -/
def IsDelimiter (b : UInt8) : Prop :=
  ¬(b ≤ 0x20 ∨ b = 0x7F) ∧ b ≠ 37 ∧ isHexDigit b = false

instance (b : UInt8) : Decidable (IsDelimiter b) := inferInstanceAs (Decidable (_ ∧ _))

theorem isValidUriText_cons {b : UInt8} (hb : IsDelimiter b) (text : Bytes) :
    isValidUriText (b :: text) = isValidUriText text := by
  rw [isValidUriText.eq_def]
  show (if b ≤ 0x20 ∨ b = 0x7F then false else if b = 37 then _ else isValidUriText text) = _
  rw [if_neg hb.1, if_neg hb.2.1]

theorem isValidUriText_percent (high low : UInt8) (text : Bytes) :
    isValidUriText (37 :: high :: low :: text) =
      (isHexDigit high && isHexDigit low && isValidUriText text) := by
  rw [isValidUriText.eq_def]
  show (if (37 : UInt8) ≤ 0x20 ∨ (37 : UInt8) = 0x7F then false
    else if (37 : UInt8) = 37 then _ else _) = _
  rw [if_neg (by decide), if_pos rfl]

/-- A delimiter cuts a text into two. -/
theorem isValidUriText_append {b : UInt8} (hb : IsDelimiter b) (as bs : Bytes) :
    isValidUriText (as ++ b :: bs) = (isValidUriText as && isValidUriText bs) := by
  fun_induction isValidUriText as with
  | case1 => exact isValidUriText_cons hb bs
  | case2 value text hvalue =>
    rw [List.cons_append, isValidUriText.eq_def]
    show (if value ≤ 0x20 ∨ value = 0x7F then false else _) = _
    rw [if_pos hvalue, Bool.false_and]
  | case3 high low text hvalue ih =>
    rw [List.cons_append, List.cons_append, List.cons_append, isValidUriText_percent, ih,
      Bool.and_assoc (isHexDigit high && isHexDigit low)]
  | case4 text hshort =>
    -- the escape is not complete, and the delimiter does not complete it
    rw [Bool.false_and]
    cases text with
    | nil =>
      cases bs with
      | nil => rfl
      | cons c bs =>
        show isValidUriText (37 :: b :: c :: bs) = false
        rw [isValidUriText_percent, hb.2.2, Bool.false_and, Bool.false_and]
    | cons x text =>
      cases text with
      | nil =>
        show isValidUriText (37 :: x :: b :: bs) = false
        rw [isValidUriText_percent, hb.2.2, Bool.and_false, Bool.false_and]
      | cons y text => exact absurd rfl (hshort x y text)
  | case5 value text hvalue hpercent ih =>
    rw [List.cons_append, isValidUriText.eq_def]
    show (if value ≤ 0x20 ∨ value = 0x7F then false
      else if value = 37 then _ else isValidUriText (text ++ b :: bs)) = _
    rw [if_neg hvalue, if_neg hpercent, ih]

/-! ### What a URI looks like -/

/-- The text is cut at its first `c`, if there is one. -/
def Cut (c : UInt8) (text front back : Bytes) : Prop :=
  c ∉ front ∧ (text = front ∧ back = [] ∨ text = front ++ c :: back)

/-- There is no colon before the first slash. -/
def NoScheme (hierarchy : Bytes) : Prop :=
  58 ∉ hierarchy ∨ ∃ as bs, hierarchy = as ++ 47 :: bs ∧ 47 ∉ as ∧ 58 ∉ as

/-- A scheme and what follows it. -/
def SchemeOf (hierarchy rest : Bytes) (uri : Uri) : Prop :=
  uri.scheme = [] ∧ rest = hierarchy ∧ NoScheme hierarchy ∨
    ∃ first scheme, hierarchy = first :: scheme ++ 58 :: rest ∧ isSchemeStart first = true ∧
      scheme.all isSchemeCharacter = true ∧ uri.scheme = (first :: scheme).map asciiLower

/-- A colon and the port, or neither. -/
def PortOf (suffix : Bytes) (uri : Uri) : Prop :=
  suffix = [] ∧ uri.port = -1 ∨ ∃ digits, suffix = 58 :: digits ∧ parsePort digits = some uri.port

/-- A host in brackets, or one without colon and brackets. -/
def HostOf (hostPort : Bytes) (uri : Uri) : Prop :=
  (∃ suffix, hostPort = 91 :: (uri.host ++ 93 :: suffix) ∧ uri.host ≠ [] ∧ 93 ∉ uri.host ∧
      PortOf suffix uri) ∨
    ∃ suffix, hostPort = uri.host ++ suffix ∧ 91 ∉ hostPort ∧ 93 ∉ hostPort ∧ 58 ∉ uri.host ∧
      PortOf suffix uri

/-- The user information ends with the last `@`. -/
def AuthorityOf (authority : Bytes) (uri : Uri) : Prop :=
  ∃ hostPort, 64 ∉ hostPort ∧ (authority = hostPort ∧ uri.userinfo = [] ∨
    authority = uri.userinfo ++ 64 :: hostPort) ∧ HostOf hostPort uri

/-- Two slashes and an authority up to the next slash, or no authority. -/
def PathOf (rest : Bytes) (uri : Uri) : Prop :=
  (∃ authority, rest = 47 :: 47 :: (authority ++ uri.path) ∧ 47 ∉ authority ∧
      (uri.path = [] ∨ ∃ path, uri.path = 47 :: path) ∧ uri.hasAuthority = true ∧
      AuthorityOf authority uri) ∨
    rest = uri.path ∧ (∀ authority, rest ≠ 47 :: 47 :: authority) ∧ uri.hasAuthority = false ∧
      uri.userinfo = [] ∧ uri.host = [] ∧ uri.port = -1

/-- The parts of a text. -/
def Describes (text : Bytes) (uri : Uri) : Prop :=
  ∃ hierarchy front rest, Cut 35 text hierarchy uri.fragment ∧ Cut 63 hierarchy front uri.query ∧
    SchemeOf front rest uri ∧ PathOf rest uri

variable {uri uri' : Uri} {text hierarchy hierarchy' front back rest authority hostPort : Bytes}
  {c : UInt8}

theorem Cut.takeWhile (h : Cut c text front back) : text.takeWhile (· != c) = front := by
  rcases h.2 with ⟨rfl, -⟩ | rfl
  · exact takeWhile_of_notMem h.1
  · exact takeWhile_append_cons h.1

theorem exists_cut (c : UInt8) (text : Bytes) : ∃ front back, Cut c text front back := by
  cases hfind : find [c] text 0 with
  | none =>
    have hc := find_single_eq_none_iff.mp hfind
    exact ⟨text, [], hc, .inl ⟨rfl, rfl⟩⟩
  | some i =>
    obtain ⟨as, bs, htext, hc, -⟩ := find_single_iff.mp hfind
    exact ⟨as, bs, hc, .inr htext⟩

theorem splitFragment_of_cut (h : Cut 35 text front back) (huri : uri.fragment = []) :
    splitFragment uri text = (uri.setFragment back, front) := by
  rcases h.2 with ⟨rfl, rfl⟩ | rfl
  · rw [splitFragment, find_single_eq_none_iff.mpr h.1, setFragment, ← huri]
  · rw [splitFragment, find_single_iff.mpr ⟨front, back, rfl, h.1, rfl⟩]
    show (uri.setFragment ((front ++ 35 :: back).drop (front.length + 1)),
      (front ++ 35 :: back).take front.length) = _
    rw [List.take_left, List.drop_append, Nat.add_sub_cancel_left,
      List.drop_eq_nil_of_le (Nat.le_succ _)]
    rfl

theorem splitQuery_of_cut (h : Cut 63 text front back) (huri : uri.query = []) :
    splitQuery uri text = (uri.setQuery back, front) := by
  rcases h.2 with ⟨rfl, rfl⟩ | rfl
  · rw [splitQuery, find_single_eq_none_iff.mpr h.1, setQuery, ← huri]
  · rw [splitQuery, find_single_iff.mpr ⟨front, back, rfl, h.1, rfl⟩]
    show (uri.setQuery ((front ++ 63 :: back).drop (front.length + 1)),
      (front ++ 63 :: back).take front.length) = _
    rw [List.take_left, List.drop_append, Nat.add_sub_cancel_left,
      List.drop_eq_nil_of_le (Nat.le_succ _)]
    rfl

/-! ### The scheme -/

theorem isSchemeCharacter_ne {b : UInt8} (h : isSchemeCharacter b = true) :
    b ≠ 58 ∧ b ≠ 47 ∧ b ≠ 63 ∧ b ≠ 35 := by
  refine ⟨?_, ?_, ?_, ?_⟩
  · rintro rfl
    exact absurd h (by decide)
  · rintro rfl
    exact absurd h (by decide)
  · rintro rfl
    exact absurd h (by decide)
  · rintro rfl
    exact absurd h (by decide)

theorem isSchemeCharacter_of_start {b : UInt8} (h : isSchemeStart b = true) :
    isSchemeCharacter b = true := by
  rw [isSchemeCharacter, h]
  rfl

/-- A colon before the first slash. -/
theorem find_slash (as bs : Bytes) (has : 47 ∉ as) :
    (find [47] (as ++ 58 :: bs) 0).any (· ≤ as.length) = false := by
  cases hslash : find [47] (as ++ 58 :: bs) 0 with
  | none => rfl
  | some i =>
    rw [Option.any_some, decide_eq_false_iff_not]
    intro hle
    obtain ⟨as', bs', heq, -, rfl⟩ := find_single_iff.mp hslash
    have hget : (as ++ 58 :: bs)[as'.length]? = some 47 := by
      rw [heq, List.getElem?_append_right (Nat.le_refl _), Nat.sub_self]
      rfl
    -- the slash would be in `as`, or be the colon
    rcases Nat.lt_or_eq_of_le hle with hlt | hlen
    · rw [List.getElem?_append_left hlt] at hget
      exact has (List.mem_of_getElem? hget)
    · rw [hlen, List.getElem?_append_right (Nat.le_refl _), Nat.sub_self] at hget
      exact absurd (Option.some_inj.mp hget) (by decide)

theorem splitScheme_of_schemeOf {u : Uri} (h : SchemeOf hierarchy rest u) (huri : uri.scheme = []) :
    splitScheme uri hierarchy = some ({ uri with scheme := u.scheme }, rest) := by
  rcases h with ⟨hscheme, rfl, hno⟩ | ⟨first, scheme, rfl, hfirst, hall, hscheme⟩
  · have hsame : ({ uri with scheme := u.scheme } : Uri) = uri := by rw [hscheme, ← huri]
    rw [hsame]
    cases hcolon : find [58] rest 0 with
    | none => rw [splitScheme, hcolon]
    | some colon =>
      obtain ⟨as, bs, heq, has, rfl⟩ := find_single_iff.mp hcolon
      obtain ⟨front, back, hfront, hslash, hcolon'⟩ : ∃ front back, rest = front ++ 47 :: back ∧
          47 ∉ front ∧ 58 ∉ front := by
        refine hno.resolve_left fun hnot => hnot ?_
        rw [heq]
        exact List.mem_append_right _ List.mem_cons_self
      have hle : front.length ≤ as.length := by
        by_contra hlt
        rw [Nat.not_le] at hlt
        have hget : rest[as.length]? = some 58 := by
          rw [heq, List.getElem?_append_right (Nat.le_refl _), Nat.sub_self]
          rfl
        rw [hfront, List.getElem?_append_left hlt] at hget
        exact hcolon' (List.mem_of_getElem? hget)
      have hany : (find [47] rest 0).any (· ≤ as.length) = true := by
        rw [find_single_iff.mpr ⟨front, back, hfront, hslash, rfl⟩, Option.any_some,
          decide_eq_true_eq]
        exact hle
      rw [splitScheme, hcolon]
      exact if_pos hany
  · have hchar : ∀ b ∈ first :: scheme, isSchemeCharacter b = true := by
      intro b hb
      rcases List.mem_cons.mp hb with rfl | hb
      · exact isSchemeCharacter_of_start hfirst
      · exact List.all_eq_true.mp hall b hb
    have hcolon : find [58] (first :: scheme ++ 58 :: rest) 0 = some (first :: scheme).length :=
      find_single_iff.mpr ⟨first :: scheme, rest, rfl,
        fun hmem => (isSchemeCharacter_ne (hchar 58 hmem)).1 rfl, rfl⟩
    have hslash := find_slash (first :: scheme) rest
      fun hmem => (isSchemeCharacter_ne (hchar 47 hmem)).2.1 rfl
    rw [splitScheme, hcolon]
    show (if (find [47] (first :: scheme ++ 58 :: rest) 0).any (· ≤ (first :: scheme).length) = true
      then _ else _) = _
    rw [if_neg (by rw [hslash]; simp), List.take_left, List.drop_append, Nat.add_sub_cancel_left,
      List.drop_eq_nil_of_le (Nat.le_succ _)]
    show (if (!isSchemeStart first || !scheme.all isSchemeCharacter) = true then none
      else some (uri.setScheme (first :: scheme), rest)) = _
    rw [hfirst, hall, if_neg (by simp), setScheme, hscheme]

theorem schemeOf_of_splitScheme (h : splitScheme uri hierarchy = some (uri', rest))
    (huri : uri.scheme = []) : SchemeOf hierarchy rest uri' := by
  cases hcolon : find [58] hierarchy 0 with
  | none =>
    rw [splitScheme, hcolon] at h
    obtain ⟨rfl, rfl⟩ := Prod.mk.inj (Option.some_inj.mp h)
    exact .inl ⟨huri, rfl, .inl (find_single_eq_none_iff.mp hcolon)⟩
  | some colon =>
    obtain ⟨as, bs, heq, has, rfl⟩ := find_single_iff.mp hcolon
    rw [splitScheme, hcolon] at h
    replace h : (if (find [47] hierarchy 0).any (· ≤ as.length) = true then some (uri, hierarchy)
      else _) = some (uri', rest) := h
    by_cases hany : (find [47] hierarchy 0).any (· ≤ as.length) = true
    · rw [if_pos hany] at h
      obtain ⟨rfl, rfl⟩ := Prod.mk.inj (Option.some_inj.mp h)
      refine .inl ⟨huri, rfl, .inr ?_⟩
      cases hslash : find [47] hierarchy 0 with
      | none =>
        rw [hslash] at hany
        exact absurd hany (by simp)
      | some i =>
        rw [hslash, Option.any_some, decide_eq_true_eq] at hany
        obtain ⟨front, back, hfront, hslash', rfl⟩ := find_single_iff.mp hslash
        refine ⟨front, back, hfront, hslash', fun hmem => has ?_⟩
        -- what is before the slash is before the colon
        have htake : as.take front.length = front := by
          have hlen : (as ++ 58 :: bs).take front.length = front := by
            rw [← heq, hfront, List.take_left]
          rwa [List.take_append_of_le_length hany] at hlen
        rw [← htake] at hmem
        exact List.mem_of_mem_take hmem
    · rw [if_neg hany, heq, List.take_left, List.drop_append, Nat.add_sub_cancel_left,
        List.drop_eq_nil_of_le (Nat.le_succ _)] at h
      cases as with
      | nil => exact absurd h (by simp)
      | cons first scheme =>
        replace h : (if (!isSchemeStart first || !scheme.all isSchemeCharacter) = true then none
          else some (uri.setScheme (first :: scheme), bs)) = some (uri', rest) := h
        split at h
        · exact absurd h (by simp)
        · next hok =>
          obtain ⟨rfl, rfl⟩ := Prod.mk.inj (Option.some_inj.mp h)
          rw [Bool.or_eq_true, not_or, Bool.not_eq_true', Bool.not_eq_true', Bool.not_eq_false,
            Bool.not_eq_false] at hok
          exact .inr ⟨first, scheme, heq, hok.1, hok.2, rfl⟩

theorem splitScheme_other (h : splitScheme uri hierarchy = some (uri', rest)) :
    uri' = { uri with scheme := uri'.scheme } := by
  rw [splitScheme] at h
  split at h
  · obtain ⟨rfl, -⟩ := Prod.mk.inj (Option.some_inj.mp h)
    rfl
  · split at h
    · obtain ⟨rfl, -⟩ := Prod.mk.inj (Option.some_inj.mp h)
      rfl
    · split at h
      · exact absurd h (by simp)
      · split at h
        · exact absurd h (by simp)
        · obtain ⟨rfl, -⟩ := Prod.mk.inj (Option.some_inj.mp h)
          rfl

/-! ### The authority -/

theorem rfind_of_notMem (h : c ∉ text) : rfind c text = none := by
  rw [rfind, Option.map_eq_none_iff, List.findIdx?_eq_none_iff]
  intro b hb
  rw [beq_eq_false_iff_ne]
  exact fun heq => h (heq ▸ List.mem_reverse.mp hb)

/-- The last occurrence of a character. -/
theorem rfind_append (h : c ∉ back) : rfind c (front ++ c :: back) = some front.length := by
  have hback : back.reverse.findIdx? (· == c) = none := by
    rw [List.findIdx?_eq_none_iff]
    intro b hb
    rw [beq_eq_false_iff_ne]
    exact fun heq => h (heq ▸ List.mem_reverse.mp hb)
  have hidx : (front ++ c :: back).reverse.findIdx? (· == c) = some back.length := by
    have hfirst : ([c] ++ front.reverse).findIdx? (· == c) = some 0 := by
      rw [List.singleton_append, List.findIdx?_cons, if_pos (beq_self_eq_true c)]
    rw [List.reverse_append, List.reverse_cons, List.append_assoc, List.findIdx?_append, hback,
      hfirst, Option.none_or, Option.map_some, Nat.zero_add, List.length_reverse]
  rw [rfind, hidx, Option.map_some, List.length_append, List.length_cons]
  congr 1
  omega

theorem exists_last (c : UInt8) (text : Bytes) :
    c ∉ text ∨ ∃ front back, text = front ++ c :: back ∧ c ∉ back := by
  by_cases hmem : c ∈ text
  · obtain ⟨as, bs, heq, hc⟩ := List.eq_append_cons_of_mem (List.mem_reverse.mpr hmem)
    refine .inr ⟨bs.reverse, as.reverse, ?_, fun h => hc (List.mem_reverse.mp h)⟩
    have hrev := congrArg List.reverse heq
    rw [List.reverse_reverse, List.reverse_append, List.reverse_cons, List.append_assoc] at hrev
    exact hrev
  · exact .inl hmem

theorem parsePort_nonneg {digits : Bytes} {port : ℤ} (h : parsePort digits = some port) :
    0 ≤ port ∧ port ≤ 2 ^ 16 - 1 := by
  rw [parsePort] at h
  split at h
  · exact absurd h (by simp)
  · split at h
    · exact absurd h (by simp)
    · split at h
      · exact absurd h (by simp)
      · rw [← Option.some_inj.mp h]
        omega

/-- A port consists of digits. -/
theorem isDigitOf_of_parsePort {digits : Bytes} {port : ℤ} (h : parsePort digits = some port) :
    ∀ b ∈ digits, isDigitOf 10 b = true := by
  rw [parsePort] at h
  split at h
  · exact absurd h (by simp)
  · split at h
    · exact absurd h (by simp)
    · next value hvalue =>
      have hlength : (digits.takeWhile (isDigitOf 10)).length = digits.length := by
        by_contra hne
        rw [wholeNumber] at hvalue
        exact absurd ((if_neg hne).symm.trans hvalue) (by simp)
      have hall := (List.takeWhile_prefix (isDigitOf 10)).eq_of_length hlength
      exact List.takeWhile_eq_self_iff.mp hall

theorem notMem_of_parsePort {digits : Bytes} {port : ℤ} (h : parsePort digits = some port)
    {b : UInt8} (hb : isDigitOf 10 b = false) : b ∉ digits := by
  intro hmem
  rw [isDigitOf_of_parsePort h b hmem] at hb
  exact absurd hb (by simp)

theorem parsePort_decimal {n : ℕ} (h : n ≤ 2 ^ 16 - 1) : parsePort (decimal n) = some (n : ℤ) := by
  have hempty : (decimal n).isEmpty = false := by
    rw [List.isEmpty_eq_false_iff]
    exact decimal_ne_nil n
  rw [parsePort, hempty, wholeNumber_decimal (by omega)]
  show (if 2 ^ 16 - 1 < n then none else some (n : ℤ)) = _
  rw [if_neg (by omega)]

/-- A host in brackets. -/
theorem parseHostPort_bracket {host suffix : Bytes} (hclose : 93 ∉ host) :
    parseHostPort (91 :: (host ++ 93 :: suffix)) uri =
      if host = [] then none
      else if suffix.isEmpty then some (uri.setHost host)
      else if suffix.head? ≠ some 58 then none
      else (parsePort (suffix.drop 1)).map (uri.setHost host).setPort := by
  have hfind : find [93] (91 :: (host ++ 93 :: suffix)) 0 = some (host.length + 1) := by
    refine find_single_iff.mpr ⟨91 :: host, suffix, rfl, ?_, rfl⟩
    rw [List.mem_cons, not_or]
    exact ⟨by decide, hclose⟩
  have hhost : substr (91 :: (host ++ 93 :: suffix)) 1 (host.length + 1 - 1) = host := by
    rw [substr, List.drop_succ_cons, List.drop_zero, Nat.add_sub_cancel, List.take_left]
  have hdrop : (91 :: (host ++ 93 :: suffix)).drop (host.length + 1 + 1) = suffix := by
    rw [List.drop_succ_cons, List.drop_append, Nat.add_sub_cancel_left,
      List.drop_eq_nil_of_le (Nat.le_succ _)]
    rfl
  rw [parseHostPort, List.head?_cons, if_pos rfl, hfind]
  show (if host.length + 1 = 1 then none
    else if (List.drop (host.length + 1 + 1) (91 :: (host ++ 93 :: suffix))).isEmpty = true then
      some (uri.setHost (substr (91 :: (host ++ 93 :: suffix)) 1 (host.length + 1 - 1)))
    else if (List.drop (host.length + 1 + 1) (91 :: (host ++ 93 :: suffix))).head? ≠ some 58 then none
    else (parsePort ((List.drop (host.length + 1 + 1) (91 :: (host ++ 93 :: suffix))).drop 1)).map
      (uri.setHost (substr (91 :: (host ++ 93 :: suffix)) 1 (host.length + 1 - 1))).setPort) = _
  rw [hdrop, hhost]
  by_cases hnil : host = []
  · rw [if_pos hnil, if_pos (by rw [hnil]; rfl)]
  · rw [if_neg hnil, if_neg fun hone => hnil (List.eq_nil_of_length_eq_zero (by omega))]

/-- The tests for brackets. -/
theorem no_brackets (hopen : 91 ∉ hostPort) (hclose : 93 ∉ hostPort) :
    hostPort.head? ≠ some 91 ∧ (hostPort.contains 91 || hostPort.contains 93) = false := by
  constructor
  · intro hsome
    exact hopen (List.mem_of_mem_head? hsome)
  · rw [Bool.or_eq_false_iff, ← Bool.not_eq_true, ← Bool.not_eq_true, List.contains_iff_mem,
      List.contains_iff_mem]
    exact ⟨hopen, hclose⟩

/-- A host without brackets and port. -/
theorem parseHostPort_plain (hopen : 91 ∉ hostPort) (hclose : 93 ∉ hostPort)
    (hcolon : 58 ∉ hostPort) : parseHostPort hostPort uri = some (uri.setHost hostPort) := by
  obtain ⟨hhead, hbrackets⟩ := no_brackets hopen hclose
  rw [parseHostPort, if_neg hhead, hbrackets, if_neg (by simp), rfind_of_notMem hcolon]

/-- A colon with something behind it that contains no colon. -/
theorem parseHostPort_colon {digits : Bytes} (hopen : 91 ∉ front ++ 58 :: digits)
    (hclose : 93 ∉ front ++ 58 :: digits) (hdigits : 58 ∉ digits) :
    parseHostPort (front ++ 58 :: digits) uri =
      if 58 ∈ front then none
      else (parsePort digits).map fun port => (uri.setPort port).setHost front := by
  obtain ⟨hhead, hbrackets⟩ := no_brackets hopen hclose
  rw [parseHostPort, if_neg hhead, hbrackets, if_neg (by simp), rfind_append hdigits]
  show (if find [58] (front ++ 58 :: digits) 0 ≠ some front.length then none
    else (parsePort ((front ++ 58 :: digits).drop (front.length + 1))).map fun port =>
      (uri.setPort port).setHost ((front ++ 58 :: digits).take front.length)) = _
  by_cases hcolon : 58 ∈ front
  · rw [if_pos hcolon, if_pos]
    intro hfind
    obtain ⟨as, bs, heq, has, hlen⟩ := find_single_iff.mp hfind
    rw [(List.append_inj heq hlen.symm).1] at hcolon
    exact has hcolon
  · have hfind : find [58] (front ++ 58 :: digits) 0 = some front.length :=
      find_single_iff.mpr ⟨front, digits, rfl, hcolon, rfl⟩
    rw [if_neg hcolon, if_neg (by rw [hfind]; simp), List.take_left, List.drop_append,
      Nat.add_sub_cancel_left, List.drop_eq_nil_of_le (Nat.le_succ _)]
    rfl

/-- The parts of an authority are set, and nothing else. -/
theorem parseHostPort_of_hostOf {u : Uri} (h : HostOf hostPort u) (hport : uri.port = -1) :
    parseHostPort hostPort uri =
      some { uri with host := u.host, hasAuthority := true, port := u.port } := by
  rcases h with ⟨suffix, rfl, hne, hclose, hsuffix⟩ | ⟨suffix, heq, hopen, hclose, hcolon, hsuffix⟩
  · rw [parseHostPort_bracket hclose, if_neg hne]
    rcases hsuffix with ⟨rfl, hnone⟩ | ⟨digits, rfl, hsome⟩
    · rw [List.isEmpty_nil, if_pos rfl, setHost, hnone, ← hport]
    · rw [List.isEmpty_cons, if_neg (by simp), List.head?_cons, if_neg (by simp),
        List.drop_succ_cons, List.drop_zero, hsome]
      rfl
  · rcases hsuffix with ⟨rfl, hnone⟩ | ⟨digits, rfl, hsome⟩
    · rw [List.append_nil] at heq
      rw [parseHostPort_plain hopen hclose (heq ▸ hcolon), setHost, hnone, ← hport, heq]
    · subst heq
      rw [parseHostPort_colon hopen hclose (notMem_of_parsePort hsome (by decide)), if_neg hcolon,
        hsome]
      rfl

theorem hostOf_of_parseHostPort (h : parseHostPort hostPort uri = some uri')
    (hport : uri.port = -1) :
    HostOf hostPort uri' ∧
      uri' = { uri with host := uri'.host, hasAuthority := true, port := uri'.port } := by
  by_cases hhead : hostPort.head? = some 91
  · obtain ⟨inner, rfl⟩ : ∃ inner, hostPort = 91 :: inner := by
      cases hostPort with
      | nil => exact absurd hhead (by simp)
      | cons b inner => exact ⟨inner, by rw [Option.some_inj.mp hhead]⟩
    obtain ⟨host, suffix, hclose, ⟨rfl, -⟩ | rfl⟩ := exists_cut 93 inner
    · have hnone : find [93] (91 :: inner) 0 = none := by
        refine find_single_eq_none_iff.mpr ?_
        rw [List.mem_cons, not_or]
        exact ⟨by decide, hclose⟩
      rw [parseHostPort, if_pos hhead, hnone] at h
      exact absurd h (by simp)
    · rw [parseHostPort_bracket hclose] at h
      by_cases hnil : host = []
      · rw [if_pos hnil] at h
        exact absurd h (by simp)
      · rw [if_neg hnil] at h
        cases suffix with
        | nil =>
          obtain rfl := Option.some_inj.mp h
          exact ⟨.inl ⟨[], rfl, hnil, hclose, .inl ⟨rfl, hport⟩⟩, rfl⟩
        | cons b digits =>
          rw [List.isEmpty_cons, if_neg (by simp), List.head?_cons] at h
          split at h
          · exact absurd h (by simp)
          · next hcolon =>
            obtain ⟨port, hparse, rfl⟩ := Option.map_eq_some_iff.mp h
            obtain rfl : b = 58 := by
              by_contra hne
              exact hcolon fun heq => hne (Option.some_inj.mp heq)
            exact ⟨.inl ⟨58 :: digits, rfl, hnil, hclose, .inr ⟨digits, rfl, hparse⟩⟩, rfl⟩
  · by_cases hbrackets : (hostPort.contains 91 || hostPort.contains 93) = true
    · rw [parseHostPort, if_neg hhead, if_pos hbrackets] at h
      exact absurd h (by simp)
    · rw [Bool.or_eq_true, not_or, List.contains_iff_mem, List.contains_iff_mem] at hbrackets
      obtain ⟨hopen, hclose⟩ := hbrackets
      rcases exists_last 58 hostPort with hnot | ⟨front, digits, rfl, hdigits⟩
      · rw [parseHostPort_plain hopen hclose hnot] at h
        obtain rfl := Option.some_inj.mp h
        exact ⟨.inr ⟨[], (List.append_nil _).symm, hopen, hclose, hnot, .inl ⟨rfl, hport⟩⟩, rfl⟩
      · rw [parseHostPort_colon hopen hclose hdigits] at h
        split at h
        · exact absurd h (by simp)
        · next hcolon =>
          obtain ⟨port, hparse, rfl⟩ := Option.map_eq_some_iff.mp h
          exact ⟨.inr ⟨58 :: digits, rfl, hopen, hclose, hcolon, .inr ⟨digits, rfl, hparse⟩⟩, rfl⟩

theorem parseAuthority_of_authorityOf {u : Uri} (h : AuthorityOf authority u)
    (huser : uri.userinfo = []) (hport : uri.port = -1) :
    parseAuthority authority uri = some { uri with
      userinfo := u.userinfo, host := u.host, hasAuthority := true, port := u.port } := by
  obtain ⟨hostPort, hat, hsplit, hhost⟩ := h
  rcases hsplit with ⟨rfl, hnone⟩ | rfl
  · rw [parseAuthority, rfind_of_notMem hat]
    show parseHostPort authority uri = _
    rw [parseHostPort_of_hostOf hhost hport, hnone, ← huser]
  · rw [parseAuthority, rfind_append hat]
    show parseHostPort ((u.userinfo ++ 64 :: hostPort).drop (u.userinfo.length + 1))
      (uri.setUserinfo ((u.userinfo ++ 64 :: hostPort).take u.userinfo.length)) = _
    rw [List.take_left, List.drop_append, Nat.add_sub_cancel_left,
      List.drop_eq_nil_of_le (Nat.le_succ _)]
    exact parseHostPort_of_hostOf hhost hport

theorem authorityOf_of_parseAuthority (h : parseAuthority authority uri = some uri')
    (huser : uri.userinfo = []) (hport : uri.port = -1) :
    AuthorityOf authority uri' ∧ uri' = { uri with
      userinfo := uri'.userinfo, host := uri'.host, hasAuthority := true, port := uri'.port } := by
  rcases exists_last 64 authority with hat | ⟨user, hostPort, rfl, hat⟩
  · rw [parseAuthority, rfind_of_notMem hat] at h
    obtain ⟨hhost, heq⟩ := hostOf_of_parseHostPort h hport
    have huser' : uri'.userinfo = [] := by rw [heq, huser]
    refine ⟨⟨authority, hat, .inl ⟨rfl, huser'⟩, hhost⟩, ?_⟩
    rw [huser', ← huser]
    exact heq
  · rw [parseAuthority, rfind_append hat] at h
    replace h : parseHostPort ((user ++ 64 :: hostPort).drop (user.length + 1))
      (uri.setUserinfo ((user ++ 64 :: hostPort).take user.length)) = some uri' := h
    rw [List.take_left, List.drop_append, Nat.add_sub_cancel_left,
      List.drop_eq_nil_of_le (Nat.le_succ _)] at h
    obtain ⟨hhost, heq⟩ := hostOf_of_parseHostPort h hport
    have huser' : uri'.userinfo = user := by rw [heq, setUserinfo]
    refine ⟨⟨hostPort, hat, .inr (by rw [huser']), hhost⟩, ?_⟩
    rw [huser']
    exact heq

/-! ### Path and text -/

/-- No part of an authority has been set. -/
def NoAuthority (uri : Uri) : Prop :=
  uri.userinfo = [] ∧ uri.host = [] ∧ uri.port = -1 ∧ uri.hasAuthority = false

theorem splitAuthority_of_pathOf {u : Uri} (h : PathOf rest u) (huri : NoAuthority uri) :
    splitAuthority uri rest = some ({ uri with
      userinfo := u.userinfo, host := u.host, hasAuthority := u.hasAuthority, port := u.port },
      u.path) := by
  obtain ⟨huser, hhost, hport, hno⟩ := huri
  rcases h with ⟨authority, rfl, hslash, hpath, hhas, hauthority⟩ | ⟨rfl, hslashes, hhas, hu⟩
  · have hparse := parseAuthority_of_authorityOf hauthority huser hport
    rcases hpath with hnil | ⟨path, hpath⟩
    · have hfind : find [47] (authority ++ u.path) 0 = none := by
        rw [hnil, List.append_nil]
        exact find_single_eq_none_iff.mpr hslash
      rw [splitAuthority, hfind]
      show (parseAuthority (authority ++ u.path) uri).map (fun uri => (uri, [])) = _
      rw [hnil, List.append_nil, hparse, hhas]
      rfl
    · have hfind : find [47] (authority ++ u.path) 0 = some authority.length := by
        rw [hpath]
        exact find_single_iff.mpr ⟨authority, path, rfl, hslash, rfl⟩
      rw [splitAuthority, hfind]
      show (parseAuthority ((authority ++ u.path).take authority.length) uri).map (fun uri =>
        (uri, (authority ++ u.path).drop authority.length)) = _
      rw [List.take_left, List.drop_left, hparse, hhas]
      rfl
  · obtain ⟨huser', hhost', hport'⟩ := hu
    have hsame : ({ uri with
        userinfo := u.userinfo, host := u.host, hasAuthority := u.hasAuthority,
        port := u.port } : Uri) = uri := by
      obtain ⟨scheme, userinfo, host, path, query, fragment, port, hasAuthority⟩ := uri
      rw [hhas, huser', hhost', hport', Uri.mk.injEq]
      exact ⟨rfl, huser.symm, hhost.symm, rfl, rfl, rfl, hport.symm, hno.symm⟩
    rw [hsame]
    unfold splitAuthority
    split
    · next hierarchy heq => exact absurd heq (hslashes hierarchy)
    · rfl

theorem pathOf_of_splitAuthority (h : splitAuthority uri hierarchy = some (uri', rest))
    (huri : NoAuthority uri) :
    PathOf hierarchy (uri'.setPath rest) ∧ uri' = { uri with
      userinfo := uri'.userinfo, host := uri'.host, hasAuthority := uri'.hasAuthority,
      port := uri'.port } := by
  obtain ⟨huser, hhost, hport, hno⟩ := huri
  unfold splitAuthority at h
  split at h
  · next hierarchy =>
    obtain ⟨authority, path, hslash, hcut⟩ := exists_cut 47 hierarchy
    rcases hcut with ⟨rfl, rfl⟩ | rfl
    · rw [find_single_eq_none_iff.mpr hslash] at h
      obtain ⟨u, hparse, heq⟩ := Option.map_eq_some_iff.mp h
      obtain ⟨rfl, rfl⟩ := Prod.mk.inj heq
      obtain ⟨hauthority, hset⟩ := authorityOf_of_parseAuthority hparse huser hport
      have hhas : u.hasAuthority = true := by rw [hset]
      refine ⟨.inl ⟨hierarchy, ?_, hslash, .inl rfl, hhas, hauthority⟩, ?_⟩
      · rw [setPath, List.append_nil]
      · rw [hhas]
        exact hset
    · rw [find_single_iff.mpr ⟨authority, path, rfl, hslash, rfl⟩] at h
      obtain ⟨u, hparse, heq⟩ := Option.map_eq_some_iff.mp h
      obtain ⟨rfl, rfl⟩ := Prod.mk.inj heq
      rw [List.take_left] at hparse
      obtain ⟨hauthority, hset⟩ := authorityOf_of_parseAuthority hparse huser hport
      have hhas : u.hasAuthority = true := by rw [hset]
      rw [List.drop_left]
      refine ⟨.inl ⟨authority, rfl, hslash, .inr ⟨path, rfl⟩, hhas, hauthority⟩, ?_⟩
      rw [hhas]
      exact hset
  · next hslashes =>
    obtain ⟨rfl, rfl⟩ := Prod.mk.inj (Option.some_inj.mp h)
    exact ⟨.inr ⟨rfl, hslashes, hno, huser, hhost, hport⟩, rfl⟩

/-- **What `create` accepts**: valid texts that have the parts of a URI. -/
theorem create_eq_some_iff :
    create text = some uri ↔ isValidUriText text = true ∧ Describes text uri := by
  constructor
  · intro h
    rw [create] at h
    by_cases hvalid : isValidUriText text = true
    · rw [hvalid, if_neg (by simp)] at h
      obtain ⟨hierarchy, fragment, hfragment⟩ := exists_cut 35 text
      obtain ⟨front, query, hquery⟩ := exists_cut 63 hierarchy
      rw [splitFragment_of_cut hfragment rfl] at h
      replace h : (splitScheme (splitQuery (new.setFragment fragment) hierarchy).1
        (splitQuery (new.setFragment fragment) hierarchy).2).bind (fun x =>
          (splitAuthority x.1 x.2).bind fun y => some (y.1.setPath y.2)) = some uri := h
      rw [splitQuery_of_cut hquery rfl] at h
      obtain ⟨⟨uri₁, rest⟩, hscheme, h⟩ := Option.bind_eq_some_iff.mp h
      obtain ⟨⟨uri₂, path⟩, hauthority, h⟩ := Option.bind_eq_some_iff.mp h
      obtain rfl := Option.some_inj.mp h
      have hset := splitScheme_other hscheme
      have hno : NoAuthority uri₁ := by
        rw [hset]
        exact ⟨rfl, rfl, rfl, rfl⟩
      obtain ⟨hpath, hset₂⟩ := pathOf_of_splitAuthority hauthority hno
      have hfrag : uri₂.fragment = fragment := by rw [hset₂, hset]; rfl
      have hquer : uri₂.query = query := by rw [hset₂, hset]; rfl
      have hsch : uri₂.scheme = uri₁.scheme := by rw [hset₂]
      refine ⟨hvalid, hierarchy, front, rest, ?_, ?_, ?_, hpath⟩
      · show Cut 35 text hierarchy uri₂.fragment
        rw [hfrag]
        exact hfragment
      · show Cut 63 hierarchy front uri₂.query
        rw [hquer]
        exact hquery
      · have hof := schemeOf_of_splitScheme hscheme rfl
        rw [SchemeOf, ← hsch] at hof
        exact hof
    · rw [Bool.not_eq_true] at hvalid
      rw [hvalid, if_pos (by simp)] at h
      exact absurd h (by simp)
  · rintro ⟨hvalid, hierarchy, front, rest, hfragment, hquery, hscheme, hpath⟩
    rw [create, hvalid, if_neg (by simp), splitFragment_of_cut hfragment rfl]
    show (splitScheme (splitQuery (new.setFragment uri.fragment) hierarchy).1
      (splitQuery (new.setFragment uri.fragment) hierarchy).2).bind (fun x =>
        (splitAuthority x.1 x.2).bind fun y => some (y.1.setPath y.2)) = some uri
    rw [splitQuery_of_cut hquery rfl, splitScheme_of_schemeOf hscheme rfl, Option.bind_some]
    show (splitAuthority _ rest).bind (fun y => some (y.1.setPath y.2)) = some uri
    rw [splitAuthority_of_pathOf hpath ⟨rfl, rfl, rfl, rfl⟩, Option.bind_some]
    rfl

/-! ### Valid parts -/

theorem isValidUriText_of_visible (h : ∀ b ∈ text, ¬(b ≤ 0x20 ∨ b = 0x7F) ∧ b ≠ 37) :
    isValidUriText text = true := by
  induction text with
  | nil => rfl
  | cons b text ih =>
    obtain ⟨hvisible, hpercent⟩ := h b List.mem_cons_self
    rw [isValidUriText.eq_def]
    show (if b ≤ 0x20 ∨ b = 0x7F then false
      else if b = 37 then _ else isValidUriText text) = true
    rw [if_neg hvisible, if_neg hpercent]
    exact ih fun c hc => h c (List.mem_cons_of_mem _ hc)

/-- A property of all bytes can be checked. -/
theorem forall_byte {p : UInt8 → Prop} (h : ∀ n : Fin 256, p (UInt8.ofFin n)) (b : UInt8) : p b :=
  h b.toFin

theorem isSchemeCharacter_visible {b : UInt8} (h : isSchemeCharacter b = true) :
    ¬(b ≤ 0x20 ∨ b = 0x7F) ∧ b ≠ 37 :=
  forall_byte (p := fun b => isSchemeCharacter b = true → ¬(b ≤ 0x20 ∨ b = 0x7F) ∧ b ≠ 37)
    (by decide +kernel) b h

theorem isDigitOf_visible {b : UInt8} (h : isDigitOf 10 b = true) :
    ¬(b ≤ 0x20 ∨ b = 0x7F) ∧ b ≠ 37 :=
  forall_byte (p := fun b => isDigitOf 10 b = true → ¬(b ≤ 0x20 ∨ b = 0x7F) ∧ b ≠ 37)
    (by decide +kernel) b h

theorem asciiLower_schemeCharacter {b : UInt8} (h : isSchemeCharacter b = true) :
    isSchemeCharacter (asciiLower b) = true :=
  forall_byte (p := fun b => isSchemeCharacter b = true → isSchemeCharacter (asciiLower b) = true)
    (by decide +kernel) b h

theorem asciiLower_schemeStart {b : UInt8} (h : isSchemeStart b = true) :
    isSchemeStart (asciiLower b) = true :=
  forall_byte (p := fun b => isSchemeStart b = true → isSchemeStart (asciiLower b) = true)
    (by decide +kernel) b h

theorem asciiLower_asciiLower (b : UInt8) : asciiLower (asciiLower b) = asciiLower b :=
  forall_byte (p := fun b => asciiLower (asciiLower b) = asciiLower b) (by decide +kernel) b

theorem isValidUriText_cut (h : Cut c text front back) (hc : IsDelimiter c) :
    isValidUriText text = (isValidUriText front && isValidUriText back) := by
  rcases h.2 with ⟨rfl, rfl⟩ | rfl
  · exact (Bool.and_true _).symm
  · exact isValidUriText_append hc front back

/-- The user information, the host and what is behind the authority. -/
def validParts (uri : Uri) : Bool :=
  isValidUriText uri.userinfo && isValidUriText uri.host && isValidUriText uri.path

theorem isValidUriText_port {suffix : Bytes} (h : PortOf suffix uri) :
    isValidUriText suffix = true := by
  rcases h with ⟨rfl, -⟩ | ⟨digits, rfl, hparse⟩
  · rfl
  · rw [isValidUriText_cons (by decide)]
    exact isValidUriText_of_visible fun b hb => isDigitOf_visible (isDigitOf_of_parsePort hparse b hb)

theorem isValidUriText_hostOf (h : HostOf hostPort uri) :
    isValidUriText hostPort = isValidUriText uri.host := by
  rcases h with ⟨suffix, rfl, -, -, hport⟩ | ⟨suffix, rfl, -, -, -, hport⟩
  · rw [isValidUriText_cons (by decide), isValidUriText_append (by decide),
      isValidUriText_port hport, Bool.and_true]
  · have hvalid := isValidUriText_port hport
    rcases hport with ⟨rfl, -⟩ | ⟨digits, rfl, -⟩
    · rw [List.append_nil]
    · rw [isValidUriText_cons (by decide)] at hvalid
      rw [isValidUriText_append (by decide), hvalid, Bool.and_true]

theorem isValidUriText_authorityOf (h : AuthorityOf authority uri) :
    isValidUriText authority = (isValidUriText uri.userinfo && isValidUriText uri.host) := by
  obtain ⟨hostPort, -, ⟨rfl, hnone⟩ | rfl, hhost⟩ := h
  · rw [isValidUriText_hostOf hhost, hnone]
    rfl
  · rw [isValidUriText_append (by decide), isValidUriText_hostOf hhost]

theorem isValidUriText_pathOf (h : PathOf rest uri) : isValidUriText rest = validParts uri := by
  rcases h with ⟨authority, rfl, -, hpath, -, hauthority⟩ | ⟨rfl, -, -, huser, hhost, -⟩
  · rw [isValidUriText_cons (by decide), isValidUriText_cons (by decide), validParts,
      ← isValidUriText_authorityOf hauthority]
    rcases hpath with hnil | ⟨path, hpath⟩
    · rw [hnil, List.append_nil]
      exact (Bool.and_true _).symm
    · rw [hpath, isValidUriText_append (by decide), isValidUriText_cons (by decide)]
  · rw [validParts, huser, hhost]
    rfl

theorem isValidUriText_schemeOf (h : SchemeOf front rest uri) :
    isValidUriText front = isValidUriText rest := by
  rcases h with ⟨-, rfl, -⟩ | ⟨first, scheme, rfl, hfirst, hall, -⟩
  · rfl
  · have hvalid : isValidUriText (first :: scheme) = true := by
      refine isValidUriText_of_visible fun b hb => isSchemeCharacter_visible ?_
      rcases List.mem_cons.mp hb with rfl | hb
      · exact isSchemeCharacter_of_start hfirst
      · exact List.all_eq_true.mp hall b hb
    rw [isValidUriText_append (by decide), hvalid, Bool.true_and]

/-- Whether a text is valid depends on its parts. -/
theorem isValidUriText_describes (h : Describes text uri) :
    isValidUriText text =
      (validParts uri && isValidUriText uri.query && isValidUriText uri.fragment) := by
  obtain ⟨hierarchy, front, rest, hfragment, hquery, hscheme, hpath⟩ := h
  rw [isValidUriText_cut hfragment (by decide), isValidUriText_cut hquery (by decide),
    isValidUriText_schemeOf hscheme, isValidUriText_pathOf hpath]

/-! ### The parts of a URI can be printed -/

/-- Parts that keep the delimiters of the parts around them out. -/
structure WellFormed (uri : Uri) : Prop where
  scheme : uri.scheme = [] ∨ ∃ first scheme, uri.scheme = first :: scheme ∧
    isSchemeStart first = true ∧ scheme.all isSchemeCharacter = true
  lower : uri.scheme.map asciiLower = uri.scheme
  query : 35 ∉ uri.query
  path : 35 ∉ uri.path ∧ 63 ∉ uri.path
  userinfo : 35 ∉ uri.userinfo ∧ 63 ∉ uri.userinfo ∧ 47 ∉ uri.userinfo
  host : 35 ∉ uri.host ∧ 63 ∉ uri.host ∧ 47 ∉ uri.host ∧ 64 ∉ uri.host ∧ 93 ∉ uri.host
  port : uri.port = -1 ∨ 0 ≤ uri.port ∧ uri.port ≤ 2 ^ 16 - 1
  authority : uri.hasAuthority = true → uri.path = [] ∨ ∃ path, uri.path = 47 :: path
  noAuthority : uri.hasAuthority = false → uri.userinfo = [] ∧ uri.host = [] ∧ uri.port = -1 ∧
    (∀ authority, uri.path ≠ 47 :: 47 :: authority) ∧ (uri.scheme = [] → NoScheme uri.path)

theorem Cut.subset (h : Cut c text front back) : front ⊆ text ∧ back ⊆ text := by
  rcases h.2 with ⟨rfl, rfl⟩ | rfl
  · exact ⟨List.Subset.refl _, List.nil_subset _⟩
  · exact ⟨List.subset_append_left _ _, fun b hb =>
      List.mem_append_right _ (List.mem_cons_of_mem _ hb)⟩

theorem PortOf.bounds {suffix : Bytes} (h : PortOf suffix uri) :
    uri.port = -1 ∨ 0 ≤ uri.port ∧ uri.port ≤ 2 ^ 16 - 1 := by
  rcases h with ⟨-, hnone⟩ | ⟨digits, -, hsome⟩
  · exact .inl hnone
  · exact .inr (parsePort_nonneg hsome)

theorem HostOf.spec (h : HostOf hostPort uri) : uri.host ⊆ hostPort ∧ 93 ∉ uri.host ∧
    (uri.port = -1 ∨ 0 ≤ uri.port ∧ uri.port ≤ 2 ^ 16 - 1) := by
  rcases h with ⟨suffix, rfl, -, hclose, hport⟩ | ⟨suffix, rfl, -, hclose, -, hport⟩
  · exact ⟨fun b hb => List.mem_cons_of_mem _ (List.mem_append_left _ hb), hclose, hport.bounds⟩
  · exact ⟨List.subset_append_left _ _, fun hmem => hclose (List.mem_append_left _ hmem),
      hport.bounds⟩

theorem AuthorityOf.spec (h : AuthorityOf authority uri) : uri.userinfo ⊆ authority ∧
    uri.host ⊆ authority ∧ 64 ∉ uri.host ∧ 93 ∉ uri.host ∧
    (uri.port = -1 ∨ 0 ≤ uri.port ∧ uri.port ≤ 2 ^ 16 - 1) := by
  obtain ⟨hostPort, hat, hsplit, hhost⟩ := h
  obtain ⟨hsub, hclose, hport⟩ := hhost.spec
  refine ⟨?_, ?_, fun hmem => hat (hsub hmem), hclose, hport⟩
  · rcases hsplit with ⟨-, hnone⟩ | rfl
    · rw [hnone]
      exact List.nil_subset _
    · exact List.subset_append_left _ _
  · rcases hsplit with ⟨rfl, -⟩ | rfl
    · exact hsub
    · exact fun b hb => List.mem_append_right _ (List.mem_cons_of_mem _ (hsub hb))

theorem SchemeOf.rest_subset (h : SchemeOf front rest uri) : rest ⊆ front := by
  rcases h with ⟨-, rfl, -⟩ | ⟨first, scheme, rfl, -⟩
  · exact List.Subset.refl _
  · exact fun b hb => List.mem_append_right _ (List.mem_cons_of_mem _ hb)

theorem SchemeOf.spec (h : SchemeOf front rest uri) :
    (uri.scheme = [] ∨ ∃ first scheme, uri.scheme = first :: scheme ∧
      isSchemeStart first = true ∧ scheme.all isSchemeCharacter = true) ∧
      uri.scheme.map asciiLower = uri.scheme := by
  rcases h with ⟨hnone, -⟩ | ⟨first, scheme, -, hfirst, hall, hscheme⟩
  · rw [hnone]
    exact ⟨.inl rfl, rfl⟩
  · rw [hscheme]
    refine ⟨.inr ⟨asciiLower first, scheme.map asciiLower, rfl, asciiLower_schemeStart hfirst, ?_⟩, ?_⟩
    · rw [List.all_map, List.all_eq_true]
      intro b hb
      exact asciiLower_schemeCharacter (List.all_eq_true.mp hall b hb)
    · rw [List.map_map]
      exact List.map_congr_left fun b _ => asciiLower_asciiLower b

/-- What is parsed can be printed. -/
theorem Describes.wellFormed (h : Describes text uri) : WellFormed uri := by
  obtain ⟨hierarchy, front, rest, hfragment, hquery, hscheme, hpath⟩ := h
  have hfront : ∀ {part : Bytes}, part ⊆ rest → 35 ∉ part ∧ 63 ∉ part := by
    intro part hsub
    have hin := List.Subset.trans hsub hscheme.rest_subset
    exact ⟨fun hmem => hfragment.1 (hquery.subset.1 (hin hmem)), fun hmem => hquery.1 (hin hmem)⟩
  obtain ⟨hsch, hlower⟩ := hscheme.spec
  have hque : 35 ∉ uri.query := fun hmem => hfragment.1 (hquery.subset.2 hmem)
  rcases hpath with ⟨authority, rfl, hslash, hpath, hhas, hauthority⟩ |
    ⟨rfl, hslashes, hhas, huser, hhost, hport⟩
  · obtain ⟨huser, hhost, hat, hclose, hport⟩ := hauthority.spec
    have hin : authority ⊆ 47 :: 47 :: (authority ++ uri.path) := fun b hb =>
      List.mem_cons_of_mem _ (List.mem_cons_of_mem _ (List.mem_append_left _ hb))
    have hpathin : uri.path ⊆ 47 :: 47 :: (authority ++ uri.path) := fun b hb =>
      List.mem_cons_of_mem _ (List.mem_cons_of_mem _ (List.mem_append_right _ hb))
    obtain ⟨huser₁, huser₂⟩ := hfront (List.Subset.trans huser hin)
    obtain ⟨hhost₁, hhost₂⟩ := hfront (List.Subset.trans hhost hin)
    exact ⟨hsch, hlower, hque, hfront hpathin, ⟨huser₁, huser₂, fun hmem => hslash (huser hmem)⟩,
      ⟨hhost₁, hhost₂, fun hmem => hslash (hhost hmem), hat, hclose⟩, hport, fun _ => hpath,
      fun hno => absurd (hno.symm.trans hhas) (by simp)⟩
  · have hno : uri.scheme = [] → NoScheme uri.path := by
      intro hnil
      rcases hscheme with ⟨-, heq, hno⟩ | ⟨first, scheme, -, -, -, hcons⟩
      · rw [heq]
        exact hno
      · rw [hcons] at hnil
        exact absurd hnil (by simp)
    refine ⟨hsch, hlower, hque, hfront (List.Subset.refl _), ?_, ?_, .inl hport,
      fun h => absurd (hhas.symm.trans h) (by simp), fun _ => ⟨huser, hhost, hport, hslashes, hno⟩⟩
    · rw [huser]
      simp
    · rw [hhost]
      simp

/-! ### The printed text -/

def printedScheme (uri : Uri) : Bytes := if uri.scheme.isEmpty then [] else uri.scheme ++ [58]

def printedHost (uri : Uri) : Bytes :=
  if uri.host.contains 58 then [91] ++ uri.host ++ [93] else uri.host

def printedPort (uri : Uri) : Bytes :=
  if 0 ≤ uri.port ∧ uri.isDefaultPort = false then 58 :: decimal uri.port.toNat else []

def printedHostPort (uri : Uri) : Bytes := uri.printedHost ++ uri.printedPort

def printedAuthority (uri : Uri) : Bytes :=
  (if uri.userinfo.isEmpty then [] else uri.userinfo ++ [64]) ++ uri.printedHostPort

def normalPath (uri : Uri) : Bytes :=
  if uri.path.isEmpty then if uri.hasAuthority then [47] else [] else uri.path

/-- Everything behind the scheme, up to the query. -/
def printedRest (uri : Uri) : Bytes :=
  (if uri.hasAuthority then 47 :: 47 :: uri.printedAuthority else []) ++ uri.normalPath

/-- Everything in front of the query. -/
def printedFront (uri : Uri) : Bytes := uri.printedScheme ++ uri.printedRest

/-- Everything in front of the fragment. -/
def printedHierarchy (uri : Uri) : Bytes :=
  uri.printedFront ++ (if uri.query.isEmpty then [] else 63 :: uri.query)

/-- What is left of the parts when they are printed. -/
def normal (uri : Uri) : Uri :=
  { uri with
    port := if 0 ≤ uri.port ∧ uri.isDefaultPort = false then uri.port else -1
    path := uri.normalPath }

theorem toString_eq (uri : Uri) : uri.toString =
    uri.printedHierarchy ++ (if uri.fragment.isEmpty then [] else 35 :: uri.fragment) := by
  rw [printedHierarchy, printedFront, printedRest, ← List.append_assoc uri.printedScheme]
  cases hhas : uri.hasAuthority with
  | false => rw [toString, dump, normalPath, hhas]; rfl
  | true =>
    rw [toString, dump, normalPath, hhas, printedAuthority, printedHostPort,
      ← List.append_assoc _ uri.printedHost uri.printedPort]
    rfl

/-- An optional last part is cut off at its delimiter. -/
theorem cut_print (hfront : c ∉ front) :
    Cut c (front ++ (if back.isEmpty then [] else c :: back)) front back := by
  refine ⟨hfront, ?_⟩
  cases back with
  | nil => exact .inl ⟨List.append_nil _, rfl⟩
  | cons b back => exact .inr rfl

theorem WellFormed.notMem_printedPort (huri : WellFormed uri) {b : UInt8}
    (hb : isDigitOf 10 b = false) (hcolon : b ≠ 58) : b ∉ uri.printedPort := by
  rw [printedPort]
  split
  · next hport =>
    obtain ⟨n, hn⟩ := Int.eq_ofNat_of_zero_le hport.1
    have hle : n ≤ 2 ^ 16 - 1 := by
      rcases huri.port with hnone | ⟨-, hle⟩
      · omega
      · omega
    rw [List.mem_cons, not_or, hn, Int.toNat_natCast]
    exact ⟨hcolon, notMem_of_parsePort (parsePort_decimal hle) hb⟩
  · simp

theorem notMem_printedHost {b : UInt8} (hb : b ∉ uri.host) (hopen : b ≠ 91) (hclose : b ≠ 93) :
    b ∉ uri.printedHost := by
  rw [printedHost]
  split
  · rw [List.mem_append, List.mem_append, not_or, not_or, List.mem_singleton, List.mem_singleton]
    exact ⟨⟨hopen, hb⟩, hclose⟩
  · exact hb

theorem notMem_printedHostPort {b : UInt8} (hhost : b ∉ uri.printedHost)
    (hport : b ∉ uri.printedPort) : b ∉ uri.printedHostPort := by
  rw [printedHostPort, List.mem_append, not_or]
  exact ⟨hhost, hport⟩

theorem notMem_printedAuthority {b : UInt8} (huser : b ∉ uri.userinfo) (hat : b ≠ 64)
    (hhost : b ∉ uri.printedHostPort) : b ∉ uri.printedAuthority := by
  rw [printedAuthority, List.mem_append, not_or]
  refine ⟨?_, hhost⟩
  split
  · simp
  · rw [List.mem_append, not_or, List.mem_singleton]
    exact ⟨huser, hat⟩

theorem WellFormed.schemeCharacters (huri : WellFormed uri) :
    ∀ b ∈ uri.scheme, isSchemeCharacter b = true := by
  intro b hb
  rcases huri.scheme with hnone | ⟨first, scheme, hscheme, hfirst, hall⟩
  · rw [hnone] at hb
    exact absurd hb (by simp)
  · rw [hscheme] at hb
    rcases List.mem_cons.mp hb with rfl | hb
    · exact isSchemeCharacter_of_start hfirst
    · exact List.all_eq_true.mp hall b hb

/-- No delimiter of query or fragment is printed in front of the query. -/
theorem WellFormed.notMem_printedFront (huri : WellFormed uri) {b : UInt8}
    (hb : b = 35 ∨ b = 63) : b ∉ uri.printedFront := by
  have hscheme : b ∉ uri.printedScheme := by
    have hne : b ∉ uri.scheme := by
      intro hmem
      have hnot := isSchemeCharacter_ne (huri.schemeCharacters b hmem)
      rcases hb with rfl | rfl
      · exact hnot.2.2.2 rfl
      · exact hnot.2.2.1 rfl
    rw [printedScheme]
    split
    · simp
    · rw [List.mem_append, not_or, List.mem_singleton]
      refine ⟨hne, ?_⟩
      rintro rfl
      exact absurd hb (by decide)
  have hpath : b ∉ uri.normalPath := by
    rw [normalPath]
    split
    · split
      · rw [List.mem_singleton]
        rintro rfl
        exact absurd hb (by decide)
      · simp
    · rcases hb with rfl | rfl
      · exact huri.path.1
      · exact huri.path.2
  have hauthority : b ∉ uri.printedAuthority := by
    rcases hb with rfl | rfl
    · exact notMem_printedAuthority huri.userinfo.1 (by decide) (notMem_printedHostPort
        (notMem_printedHost huri.host.1 (by decide) (by decide))
        (huri.notMem_printedPort (by decide) (by decide)))
    · exact notMem_printedAuthority huri.userinfo.2.1 (by decide) (notMem_printedHostPort
        (notMem_printedHost huri.host.2.1 (by decide) (by decide))
        (huri.notMem_printedPort (by decide) (by decide)))
  rw [printedFront, printedRest, List.mem_append, List.mem_append, not_or, not_or]
  refine ⟨hscheme, ?_, hpath⟩
  split
  · rw [List.mem_cons, List.mem_cons, not_or, not_or]
    refine ⟨?_, ?_, hauthority⟩
    · rintro rfl
      exact absurd hb (by decide)
    · rintro rfl
      exact absurd hb (by decide)
  · simp

theorem WellFormed.cut_toString (huri : WellFormed uri) :
    Cut 35 uri.toString uri.printedHierarchy uri.fragment := by
  rw [toString_eq]
  refine cut_print ?_
  rw [printedHierarchy, List.mem_append, not_or]
  refine ⟨huri.notMem_printedFront (.inl rfl), ?_⟩
  split
  · simp
  · rw [List.mem_cons, not_or]
    exact ⟨by decide, huri.query⟩

theorem WellFormed.cut_printedHierarchy (huri : WellFormed uri) :
    Cut 63 uri.printedHierarchy uri.printedFront uri.query :=
  cut_print (huri.notMem_printedFront (.inr rfl))

/-- The scheme is found again. -/
theorem WellFormed.schemeOf_printed (huri : WellFormed uri) :
    SchemeOf uri.printedFront uri.printedRest uri.normal := by
  rcases huri.scheme with hnone | ⟨first, scheme, hscheme, hfirst, hall⟩
  · have hfront : uri.printedFront = uri.printedRest := by
      rw [printedFront, printedScheme, hnone]
      rfl
    refine .inl ⟨hnone, hfront.symm, ?_⟩
    rw [hfront]
    cases hhas : uri.hasAuthority with
    | true =>
      rw [printedRest, hhas]
      exact .inr ⟨[], 47 :: uri.printedAuthority ++ uri.normalPath, rfl, by simp, by simp⟩
    | false =>
      have hpath : uri.printedRest = uri.path := by
        rw [printedRest, normalPath, hhas, if_neg (by simp), List.nil_append]
        cases uri.path with
        | nil => rfl
        | cons b path => rfl
      rw [hpath]
      exact (huri.noAuthority hhas).2.2.2.2 hnone
  · refine .inr ⟨first, scheme, ?_, hfirst, hall, ?_⟩
    · rw [printedFront, printedScheme, hscheme]
      show (first :: scheme ++ [58]) ++ uri.printedRest = _
      rw [List.append_assoc]
      rfl
    · rw [← hscheme]
      exact huri.lower.symm

theorem WellFormed.portOf_printed (huri : WellFormed uri) : PortOf uri.printedPort uri.normal := by
  by_cases hport : 0 ≤ uri.port ∧ uri.isDefaultPort = false
  · obtain ⟨n, hn⟩ := Int.eq_ofNat_of_zero_le hport.1
    have hle : n ≤ 2 ^ 16 - 1 := by
      rcases huri.port with hnone | ⟨-, hle⟩
      · omega
      · omega
    refine .inr ⟨decimal n, ?_, ?_⟩
    · rw [printedPort, if_pos hport, hn, Int.toNat_natCast]
    · show _ = some (if 0 ≤ uri.port ∧ uri.isDefaultPort = false then uri.port else -1)
      rw [if_pos hport, parsePort_decimal hle, hn]
  · refine .inl ⟨?_, ?_⟩
    · rw [printedPort, if_neg hport]
    · show (if 0 ≤ uri.port ∧ uri.isDefaultPort = false then uri.port else -1) = -1
      rw [if_neg hport]

theorem WellFormed.close_notMem (huri : WellFormed uri) (hcolon : 58 ∉ uri.host) :
    93 ∉ uri.printedHostPort := by
  refine notMem_printedHostPort ?_ (huri.notMem_printedPort (by decide) (by decide))
  rw [printedHost, if_neg (by rwa [List.contains_iff_mem])]
  exact huri.host.2.2.2.2

/-- The host is found again, unless an opening bracket stands in it without a colon. -/
theorem WellFormed.hostOf_printed (huri : WellFormed uri) (hhost : 91 ∈ uri.host → 58 ∈ uri.host) :
    HostOf uri.printedHostPort uri.normal := by
  by_cases hcolon : 58 ∈ uri.host
  · refine .inl ⟨uri.printedPort, ?_, List.ne_nil_of_mem hcolon, huri.host.2.2.2.2,
      huri.portOf_printed⟩
    rw [printedHostPort, printedHost, if_pos (by rwa [List.contains_iff_mem])]
    show 91 :: ((uri.host ++ [93]) ++ uri.printedPort) = _
    rw [List.append_assoc]
    rfl
  · have hprinted : uri.printedHost = uri.host := by
      rw [printedHost, if_neg (by rwa [List.contains_iff_mem])]
    refine .inr ⟨uri.printedPort, ?_, ?_, huri.close_notMem hcolon, hcolon, huri.portOf_printed⟩
    · rw [printedHostPort, hprinted]
      rfl
    · refine notMem_printedHostPort ?_ (huri.notMem_printedPort (by decide) (by decide))
      rw [hprinted]
      exact fun hopen => hcolon (hhost hopen)

/-- The user information is cut off at the last `@`. -/
theorem WellFormed.cut_printedAuthority (huri : WellFormed uri) :
    64 ∉ uri.printedHostPort ∧ (uri.printedAuthority = uri.printedHostPort ∧ uri.userinfo = [] ∨
      uri.printedAuthority = uri.userinfo ++ 64 :: uri.printedHostPort) := by
  refine ⟨notMem_printedHostPort (notMem_printedHost huri.host.2.2.2.1 (by decide) (by decide))
    (huri.notMem_printedPort (by decide) (by decide)), ?_⟩
  rw [printedAuthority]
  cases huser : uri.userinfo with
  | nil => exact .inl ⟨rfl, rfl⟩
  | cons b user =>
    refine .inr ?_
    show (b :: user ++ [64]) ++ uri.printedHostPort = _
    rw [List.append_assoc]
    rfl

theorem WellFormed.slash_notMem (huri : WellFormed uri) : 47 ∉ uri.printedAuthority :=
  notMem_printedAuthority huri.userinfo.2.2 (by decide) (notMem_printedHostPort
    (notMem_printedHost huri.host.2.2.1 (by decide) (by decide))
    (huri.notMem_printedPort (by decide) (by decide)))

theorem WellFormed.normalPath_slash (huri : WellFormed uri) (hhas : uri.hasAuthority = true) :
    ∃ path, uri.normalPath = 47 :: path := by
  rcases huri.authority hhas with hnil | ⟨path, hpath⟩
  · rw [normalPath, hnil, hhas]
    exact ⟨[], rfl⟩
  · rw [normalPath, hpath]
    exact ⟨path, rfl⟩

/-- Authority and path are found again. -/
theorem WellFormed.pathOf_printed (huri : WellFormed uri) (hhost : 91 ∈ uri.host → 58 ∈ uri.host) :
    PathOf uri.printedRest uri.normal := by
  rw [printedRest]
  cases hhas : uri.hasAuthority with
  | true =>
    obtain ⟨hat, hcut⟩ := huri.cut_printedAuthority
    exact .inl ⟨uri.printedAuthority, rfl, huri.slash_notMem, .inr (huri.normalPath_slash hhas), hhas,
      uri.printedHostPort, hat, hcut, huri.hostOf_printed hhost⟩
  | false =>
    obtain ⟨huser, hnone, hport, hslashes, -⟩ := huri.noAuthority hhas
    have hpath : uri.normalPath = uri.path := by
      rw [normalPath, hhas]
      cases uri.path with
      | nil => rfl
      | cons b path => rfl
    refine .inr ⟨rfl, ?_, hhas, huser, hnone, ?_⟩
    · rw [if_neg (by simp), List.nil_append, hpath]
      exact hslashes
    · show (if 0 ≤ uri.port ∧ uri.isDefaultPort = false then uri.port else -1) = -1
      rw [hport, if_neg fun h => absurd h.1 (by decide)]

theorem WellFormed.describes_toString (huri : WellFormed uri)
    (hhost : 91 ∈ uri.host → 58 ∈ uri.host) : Describes uri.toString uri.normal :=
  ⟨uri.printedHierarchy, uri.printedFront, uri.printedRest, huri.cut_toString,
    huri.cut_printedHierarchy, huri.schemeOf_printed, huri.pathOf_printed hhost⟩

/-! ### The parts of the printed text -/

/-- What the getters of a URI return. -/
def SameParts (uri uri' : Uri) : Prop :=
  uri'.scheme = uri.scheme ∧ uri'.userinfo = uri.userinfo ∧ uri'.host = uri.host ∧
    uri'.getPort = uri.getPort ∧ uri'.getPath = uri.getPath ∧ uri'.query = uri.query ∧
    uri'.fragment = uri.fragment ∧ uri'.hasAuthority = uri.hasAuthority

instance (uri uri' : Uri) : Decidable (SameParts uri uri') := inferInstanceAs (Decidable (_ ∧ _))

theorem getPort_of_neg (h : uri.port < 0) : uri.getPort =
    if uri.scheme = ascii "http" ∨ uri.scheme = ascii "ws" then 80
    else if uri.scheme = ascii "https" ∨ uri.scheme = ascii "wss" then 443 else -1 := by
  rw [getPort, if_neg (Int.not_le.mpr h)]

/-- A default port is the port that `getPort` would return without it. -/
theorem getPort_of_isDefaultPort (hport : 0 ≤ uri.port) (h : uri.isDefaultPort = true) :
    uri.port = if uri.scheme = ascii "http" ∨ uri.scheme = ascii "ws" then 80
      else if uri.scheme = ascii "https" ∨ uri.scheme = ascii "wss" then 443 else -1 := by
  rw [isDefaultPort, if_neg (Int.not_lt.mpr hport)] at h
  simp only [Bool.or_eq_true, Bool.and_eq_true, beq_iff_eq] at h
  rcases h with ⟨hscheme, hport⟩ | ⟨hscheme, hport⟩
  · rw [if_pos hscheme, hport]
  · rw [if_neg, if_pos hscheme, hport]
    rintro (heq | heq)
    · rcases hscheme with hscheme | hscheme
      · exact absurd (hscheme.symm.trans heq) (by decide)
      · exact absurd (hscheme.symm.trans heq) (by decide)
    · rcases hscheme with hscheme | hscheme
      · exact absurd (hscheme.symm.trans heq) (by decide)
      · exact absurd (hscheme.symm.trans heq) (by decide)

theorem getPort_normal (uri : Uri) : uri.normal.getPort = uri.getPort := by
  by_cases hport : 0 ≤ uri.port
  · by_cases hdefault : uri.isDefaultPort = true
    · have hnone : uri.normal.port = -1 := if_neg fun h => absurd (hdefault.symm.trans h.2) (by simp)
      rw [getPort_of_neg (by rw [hnone]; decide), getPort, if_pos hport]
      exact (getPort_of_isDefaultPort hport hdefault).symm
    · have hsome : uri.normal.port = uri.port := if_pos ⟨hport, by rwa [Bool.not_eq_true] at hdefault⟩
      rw [getPort, hsome, if_pos hport, getPort, if_pos hport]
  · have hnone : uri.normal.port = -1 := if_neg fun h => hport h.1
    rw [getPort_of_neg (by rw [hnone]; decide), getPort_of_neg (Int.not_le.mp hport)]
    rfl

theorem sameParts_normal (uri : Uri) : SameParts uri uri.normal := by
  refine ⟨rfl, rfl, rfl, getPort_normal uri, ?_, rfl, rfl, rfl⟩
  show (if uri.normalPath.isEmpty then ascii "/" else uri.normalPath) =
    if uri.path.isEmpty then ascii "/" else uri.path
  rw [normalPath]
  cases uri.path with
  | nil =>
    cases uri.hasAuthority with
    | true => rfl
    | false => rfl
  | cons b path => rfl

/-- Printing does not see what it leaves out. -/
theorem toString_normal (uri : Uri) : uri.normal.toString = uri.toString := by
  have hpath : uri.normal.normalPath = uri.normalPath := by
    rw [normalPath]
    show (if uri.normalPath.isEmpty then if uri.hasAuthority then [47] else [] else uri.normalPath) = _
    rw [normalPath]
    cases uri.path with
    | nil =>
      cases uri.hasAuthority with
      | true => rfl
      | false => rfl
    | cons b path => rfl
  have hport : uri.normal.printedPort = uri.printedPort := by
    by_cases hport : 0 ≤ uri.port ∧ uri.isDefaultPort = false
    · have hsame : uri.normal.port = uri.port := if_pos hport
      rw [printedPort, isDefaultPort, hsame]
      rfl
    · have hnone : uri.normal.port = -1 := if_neg hport
      rw [printedPort, hnone, if_neg (by simp), printedPort, if_neg hport]
  have hrest : uri.normal.printedRest = uri.printedRest := by
    rw [printedRest, hpath, printedAuthority, printedHostPort, hport]
    rfl
  rw [toString_eq, toString_eq, printedHierarchy, printedFront, hrest]
  rfl

/-! ### Opening brackets -/

/-- What is behind the last `c`. -/
def lastPart (c : UInt8) (text : Bytes) : Bytes := (text.reverse.takeWhile (· != c)).reverse

/-- What is behind a scheme. -/
def afterScheme (front : Bytes) : Bytes :=
  if (front.takeWhile (· != 47)).contains 58 then (front.dropWhile (· != 58)).drop 1 else front

/-- What stands between two slashes and the next one. -/
def authorityPart : Bytes → Option Bytes
  | 47 :: 47 :: rest => some (rest.takeWhile (· != 47))
  | _ => none

/-- What stands in brackets at the start of a text. -/
def bracketPart : Bytes → Option Bytes
  | 91 :: inner => some (inner.takeWhile (· != 93))
  | _ => none

/-- What stands in brackets at the place of the host. -/
def hostLiteral (text : Bytes) : Option Bytes :=
  (authorityPart (afterScheme ((text.takeWhile (· != 35)).takeWhile (· != 63)))).bind
    fun authority => bracketPart (lastPart 64 authority)

theorem lastPart_of_cut (hat : c ∉ hostPort)
    (hcut : authority = hostPort ∨ ∃ user, authority = user ++ c :: hostPort) :
    lastPart c authority = hostPort := by
  have hreverse : c ∉ hostPort.reverse := fun hc => hat (List.mem_reverse.mp hc)
  rcases hcut with rfl | ⟨user, rfl⟩
  · rw [lastPart, takeWhile_of_notMem hreverse, List.reverse_reverse]
  · rw [lastPart, List.reverse_append, List.reverse_cons, List.append_assoc, List.singleton_append,
      takeWhile_append_cons hreverse, List.reverse_reverse]

theorem SchemeOf.afterScheme (h : SchemeOf front rest uri) : Uri.afterScheme front = rest := by
  rcases h with ⟨-, rfl, hno⟩ | ⟨first, scheme, rfl, hfirst, hall, -⟩
  · have hcolon : (rest.takeWhile (· != 47)).contains 58 = false := by
      rw [← Bool.not_eq_true, List.contains_iff_mem]
      rcases hno with hno | ⟨as, bs, rfl, hslash, hcolon⟩
      · exact fun hmem => hno ((List.takeWhile_subset _) hmem)
      · rwa [(show Cut 47 (as ++ 47 :: bs) as bs from ⟨hslash, .inr rfl⟩).takeWhile]
    rw [Uri.afterScheme, hcolon, if_neg (by simp)]
  · have hchar : ∀ b ∈ first :: scheme, isSchemeCharacter b = true := by
      intro b hb
      rcases List.mem_cons.mp hb with rfl | hb
      · exact isSchemeCharacter_of_start hfirst
      · exact List.all_eq_true.mp hall b hb
    have hslash : ∀ b ∈ first :: scheme, (b != 47) = true := fun b hb =>
      bne_iff_ne.mpr (isSchemeCharacter_ne (hchar b hb)).2.1
    have hcolon : ∀ b ∈ first :: scheme, (b != 58) = true := fun b hb =>
      bne_iff_ne.mpr (isSchemeCharacter_ne (hchar b hb)).1
    have hcontains : ((first :: scheme ++ 58 :: rest).takeWhile (· != 47)).contains 58 = true := by
      rw [List.contains_iff_mem, List.takeWhile_append_of_pos hslash, List.takeWhile_cons,
        if_pos (by decide)]
      exact List.mem_append_right _ List.mem_cons_self
    rw [Uri.afterScheme, hcontains, if_pos rfl, List.dropWhile_append_of_pos hcolon,
      List.dropWhile_cons, if_neg (by simp), List.drop_succ_cons, List.drop_zero]

/-- An authority ends where the path begins. -/
theorem takeWhile_authority {path : Bytes} (hslash : 47 ∉ authority)
    (hpath : path = [] ∨ ∃ segments, path = 47 :: segments) :
    (authority ++ path).takeWhile (· != 47) = authority := by
  rcases hpath with rfl | ⟨segments, rfl⟩
  · exact (show Cut 47 (authority ++ []) authority [] from
      ⟨hslash, .inl ⟨List.append_nil _, rfl⟩⟩).takeWhile
  · exact (show Cut 47 (authority ++ 47 :: segments) authority segments from
      ⟨hslash, .inr rfl⟩).takeWhile

theorem authorityPart_eq_none (h : ∀ authority, rest ≠ 47 :: 47 :: authority) :
    authorityPart rest = none := by
  unfold authorityPart
  split
  · next authority => exact absurd rfl (h authority)
  · rfl

theorem bracketPart_eq_none (h : 91 ∉ hostPort) : bracketPart hostPort = none := by
  unfold bracketPart
  split
  · exact absurd List.mem_cons_self h
  · rfl

/-- The host in brackets, or no bracket. -/
theorem HostOf.bracketPart (h : HostOf hostPort uri) :
    Uri.bracketPart hostPort = some uri.host ∨ Uri.bracketPart hostPort = none ∧ 91 ∉ uri.host := by
  rcases h with ⟨suffix, rfl, -, hclose, -⟩ | ⟨suffix, rfl, hopen, -⟩
  · refine .inl ?_
    show some ((uri.host ++ 93 :: suffix).takeWhile (· != 93)) = some uri.host
    rw [(show Cut 93 (uri.host ++ 93 :: suffix) uri.host suffix from ⟨hclose, .inr rfl⟩).takeWhile]
  · exact .inr ⟨bracketPart_eq_none hopen, fun hmem => hopen (List.mem_append_left _ hmem)⟩

theorem AuthorityOf.bracketPart (h : AuthorityOf authority uri) :
    Uri.bracketPart (lastPart 64 authority) = some uri.host ∨
      Uri.bracketPart (lastPart 64 authority) = none ∧ 91 ∉ uri.host := by
  obtain ⟨hostPort, hat, hcut, hhost⟩ := h
  rw [lastPart_of_cut hat (hcut.imp And.left fun heq => ⟨uri.userinfo, heq⟩)]
  exact hhost.bracketPart

/-- A text has one place for its host. -/
theorem Describes.hostLiteral (h : Describes text uri) :
    Uri.hostLiteral text = some uri.host ∨ Uri.hostLiteral text = none ∧ 91 ∉ uri.host := by
  obtain ⟨hierarchy, front, rest, hfragment, hquery, hscheme, hpath⟩ := h
  rw [Uri.hostLiteral, hfragment.takeWhile, hquery.takeWhile, hscheme.afterScheme]
  rcases hpath with ⟨authority, rfl, hslash, hpath, -, hauthority⟩ | ⟨rfl, hslashes, -, -, hnone, -⟩
  · have hpart : authorityPart (47 :: 47 :: (authority ++ uri.path)) = some authority :=
      congrArg some (takeWhile_authority hslash hpath)
    rw [hpart]
    exact hauthority.bracketPart
  · rw [authorityPart_eq_none hslashes, hnone]
    exact .inr ⟨rfl, by simp⟩

theorem Describes.hostLiteral_iff (h : Describes text uri) :
    (∀ literal, Uri.hostLiteral text = some literal → 91 ∈ literal → 58 ∈ literal) ↔
      (91 ∈ uri.host → 58 ∈ uri.host) := by
  rcases h.hostLiteral with hsome | ⟨hnone, hopen⟩
  · constructor
    · exact fun hall => hall uri.host hsome
    · intro himp literal heq
      obtain rfl := Option.some_inj.mp (hsome.symm.trans heq)
      exact himp
  · refine ⟨fun _ hmem => absurd hmem hopen, fun _ literal heq => ?_⟩
    rw [hnone] at heq
    exact absurd heq (by simp)

/-- Two brackets, or none. -/
theorem HostOf.close_of_open (h : HostOf hostPort uri) (hopen : 91 ∈ hostPort) : 93 ∈ hostPort := by
  rcases h with ⟨suffix, rfl, -⟩ | ⟨suffix, rfl, hnot, -⟩
  · exact List.mem_cons_of_mem _ (List.mem_append_right _ List.mem_cons_self)
  · exact absurd hopen hnot

/-- A printed host with an opening bracket, but without the brackets around it, is not
accepted. -/
theorem WellFormed.not_describes (huri : WellFormed uri) (hopen : 91 ∈ uri.host)
    (hcolon : 58 ∉ uri.host) : ¬Describes uri.toString uri' := by
  rintro ⟨hierarchy, front, rest, hfragment, hquery, hscheme, hpath⟩
  obtain rfl : hierarchy = uri.printedHierarchy := by
    rw [← hfragment.takeWhile, huri.cut_toString.takeWhile]
  obtain rfl : front = uri.printedFront := by
    rw [← hquery.takeWhile, huri.cut_printedHierarchy.takeWhile]
  obtain rfl : rest = uri.printedRest := by
    rw [← hscheme.afterScheme, huri.schemeOf_printed.afterScheme]
  have hhas : uri.hasAuthority = true := by
    by_contra hno
    rw [Bool.not_eq_true] at hno
    rw [(huri.noAuthority hno).2.1] at hopen
    exact absurd hopen (by simp)
  obtain ⟨path, hslash⟩ := huri.normalPath_slash hhas
  have hrest : uri.printedRest = 47 :: 47 :: (uri.printedAuthority ++ 47 :: path) := by
    rw [printedRest, hhas, hslash]
    rfl
  rw [hrest] at hpath
  rcases hpath with ⟨authority, heq, hno, hpath', -, hostPort, hat, hcut, hhost⟩ | ⟨-, hslashes, -⟩
  · replace heq : uri.printedAuthority ++ 47 :: path = authority ++ uri'.path := by
      injection heq with _ heq
      injection heq
    obtain rfl : authority = uri.printedAuthority := by
      rw [← takeWhile_authority hno hpath', ← heq,
        takeWhile_authority huri.slash_notMem (.inr ⟨path, rfl⟩)]
    obtain rfl : hostPort = uri.printedHostPort := by
      obtain ⟨hat', hcut'⟩ := huri.cut_printedAuthority
      rw [← lastPart_of_cut hat (hcut.imp And.left fun heq => ⟨_, heq⟩),
        lastPart_of_cut hat' (hcut'.imp And.left fun heq => ⟨_, heq⟩)]
    refine huri.close_notMem hcolon (hhost.close_of_open ?_)
    rw [printedHostPort, printedHost, if_neg (by rwa [List.contains_iff_mem])]
    exact List.mem_append_left _ hopen
  · exact hslashes _ rfl

/-- The printed text is parsed to the parts it was printed from. -/
theorem create_toString (h : create text = some uri) (hhost : 91 ∈ uri.host → 58 ∈ uri.host) :
    create uri.toString = some uri.normal := by
  obtain ⟨hvalid, hdescribes⟩ := create_eq_some_iff.mp h
  have hprinted := hdescribes.wellFormed.describes_toString hhost
  refine create_eq_some_iff.mpr ⟨?_, hprinted⟩
  have hpath : isValidUriText uri.normalPath = isValidUriText uri.path := by
    rw [normalPath]
    cases uri.path with
    | nil =>
      cases uri.hasAuthority with
      | true => decide
      | false => rfl
    | cons b path => rfl
  rw [isValidUriText_describes hprinted, validParts]
  rw [isValidUriText_describes hdescribes, validParts] at hvalid
  show (isValidUriText uri.userinfo && isValidUriText uri.host && isValidUriText uri.normalPath &&
    isValidUriText uri.query && isValidUriText uri.fragment) = true
  rw [hpath]
  exact hvalid

/-- **Parsing and printing.**  The text of a URI comes back, with the same parts, exactly when
no host in brackets contains an opening bracket without a colon. -/
theorem roundTrip_iff (text : Bytes) (uri : Uri) (h : create text = some uri) :
    (∃ uri', create uri.toString = some uri' ∧ SameParts uri uri' ∧
      uri'.toString = uri.toString) ↔
      ∀ literal, hostLiteral text = some literal → 91 ∈ literal → 58 ∈ literal := by
  obtain ⟨-, hdescribes⟩ := create_eq_some_iff.mp h
  rw [hdescribes.hostLiteral_iff]
  constructor
  · rintro ⟨uri', hcreate, -⟩ hopen
    by_contra hcolon
    exact hdescribes.wellFormed.not_describes hopen hcolon (create_eq_some_iff.mp hcreate).2
  · intro hhost
    exact ⟨uri.normal, create_toString h hhost, sameParts_normal uri, toString_normal uri⟩

/-- A URI with all parts and a default port. -/
theorem roundTrip_iff_example :
    ∃ uri', create (ascii "http://user@Example:080?a#b") = some uri' ∧
      ∃ uri'', create uri'.toString = some uri'' ∧ SameParts uri' uri'' ∧
        uri''.toString = uri'.toString := by
  have hcreate : create (ascii "http://user@Example:080?a#b") =
      some ⟨ascii "http", ascii "user", ascii "Example", [], ascii "a", ascii "b", 80, true⟩ := by
    decide +kernel
  refine ⟨_, hcreate, (roundTrip_iff _ _ hcreate).mpr ?_⟩
  have hliteral : hostLiteral (ascii "http://user@Example:080?a#b") = none := by decide +kernel
  intro literal heq
  exact absurd (hliteral.symm.trans heq) (by simp)

/-- `//[a[b]/` is accepted, and printed as `//a[b/`, which is not. -/
theorem not_roundTrip :
    ¬∀ text uri, create text = some uri → ∃ uri', create uri.toString = some uri' ∧
      SameParts uri uri' ∧ uri'.toString = uri.toString := by
  intro hall
  have hcreate : create (ascii "//[a[b]/") =
      some ⟨[], [], ascii "a[b", ascii "/", [], [], -1, true⟩ := by decide +kernel
  obtain ⟨uri', hprinted, -⟩ := hall _ _ hcreate
  have hnone : create (toString ⟨[], [], ascii "a[b", ascii "/", [], [], -1, true⟩) = none := by
    decide +kernel
  exact absurd (hnone.symm.trans hprinted) (by simp)

end Uri

end Http

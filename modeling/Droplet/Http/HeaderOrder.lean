/-
The order of header maps and the comparisons of names.

Names are compared in several places, each with a comparison of its own: the parser and the
client fold both bytes of a round in their loops, the request and the response go through
`std::equal`.  The maps are ordered by yet another one.

* `comparisons_eq` — the comparisons are one function;
* `find?_run` — what a map holds after insertions and erasures;
* `header_names_agree` — the order is strict and weak, its equivalence is each comparison, and
  a lookup gives what was set last under a name that any of them takes for the same.
-/
import Droplet.Http.LazyParts
import Mathlib.Data.List.GetD
import Mathlib.Order.RelClasses

namespace Http

/-! ### Comparisons -/

/-- The comparison of the parsers. -/
def parserCaseInsensitiveEqual (lhs rhs : Bytes) : Bool :=
  if lhs.length ≠ rhs.length then false
  else (List.range lhs.length).all fun index =>
    let left := lhs.getD index 0
    let right := rhs.getD index 0
    let left := if 65 ≤ left ∧ left ≤ 90 then left + (97 - 65) else left
    let right := if 65 ≤ right ∧ right ≤ 90 then right + (97 - 65) else right
    left == right

/-- A byte that is folded as an `int`, and made a byte again. -/
def foldedInt (value : UInt8) : UInt8 :=
  if 65 ≤ value ∧ value ≤ 90 then UInt8.ofNat (value.toNat + (97 - 65)) else value

/-- The comparison of the client. -/
def connectionCaseInsensitiveEqual (lhs rhs : Bytes) : Bool :=
  if lhs.length ≠ rhs.length then false
  else (List.range lhs.length).all fun index =>
    let foldedLeft := foldedInt (lhs.getD index 0)
    let foldedRight := foldedInt (rhs.getD index 0)
    foldedLeft == foldedRight

/-- `std::equal`, which goes as far as its first range. -/
def stdEqual (equal : UInt8 → UInt8 → Bool) : Bytes → Bytes → Bool
  | [], _ => true
  | l :: lhs, r :: rhs => equal l r && stdEqual equal lhs rhs
  | _ :: _, [] => false

/-- The comparison of the request. -/
def requestCaseInsensitiveEqual (lhs rhs : Bytes) : Bool :=
  if lhs.length ≠ rhs.length then false
  else stdEqual (fun left right => asciiLower left == asciiLower right) lhs rhs

/-- The comparison of the response. -/
def responseCaseInsensitiveEqual (lhs rhs : Bytes) : Bool :=
  if lhs.length ≠ rhs.length then false
  else stdEqual (fun left right => asciiLower left == asciiLower right) lhs rhs

def comparisons : List (Bytes → Bytes → Bool) :=
  [parserCaseInsensitiveEqual, requestCaseInsensitiveEqual, responseCaseInsensitiveEqual,
    connectionCaseInsensitiveEqual]

/-- A loop over the indices that compares the folded bytes. -/
theorem all_range_eq (equal : UInt8 → UInt8 → Bool)
    (hequal : ∀ l r, equal l r = true ↔ asciiLower l = asciiLower r) (lhs rhs : Bytes) :
    (if lhs.length ≠ rhs.length then false
      else (List.range lhs.length).all fun index => equal (lhs.getD index 0) (rhs.getD index 0)) =
      caseInsensitiveEqual lhs rhs := by
  rw [Bool.eq_iff_iff, caseInsensitiveEqual_iff]
  by_cases hlength : lhs.length = rhs.length
  · rw [if_neg (not_not_intro hlength), List.all_eq_true]
    constructor
    · intro h
      refine List.ext_getElem (by rw [List.length_map, List.length_map, hlength]) ?_
      intro i hl hr
      rw [List.length_map] at hl hr
      have hi := h i (List.mem_range.mpr hl)
      rw [hequal, List.getD_eq_getElem _ _ hl, List.getD_eq_getElem _ _ hr] at hi
      rwa [List.getElem_map, List.getElem_map]
    · intro h i hi
      have hl := List.mem_range.mp hi
      have hr := hlength ▸ hl
      rw [hequal, List.getD_eq_getElem _ _ hl, List.getD_eq_getElem _ _ hr]
      have hget := List.getElem_of_eq h (by rwa [List.length_map] : i < (lhs.map asciiLower).length)
      rwa [List.getElem_map, List.getElem_map] at hget
  · rw [if_pos hlength]
    refine iff_of_false Bool.false_ne_true fun h => hlength ?_
    have hmap := congrArg List.length h
    rwa [List.length_map, List.length_map] at hmap

theorem stdEqual_eq (lhs rhs : Bytes) :
    (if lhs.length ≠ rhs.length then false
      else stdEqual (fun left right => asciiLower left == asciiLower right) lhs rhs) =
      caseInsensitiveEqual lhs rhs := by
  induction lhs generalizing rhs with
  | nil => cases rhs <;> rfl
  | cons l lhs ih =>
    cases rhs with
    | nil => rfl
    | cons r rhs =>
      rw [stdEqual, caseInsensitiveEqual, ← ih, List.length_cons, List.length_cons]
      by_cases hlength : lhs.length = rhs.length
      · simp [hlength]
      · simp [hlength]

theorem foldedInt_eq (value : UInt8) : foldedInt value = asciiLower value := by
  rw [foldedInt, asciiLower, UInt8.ofNat_add, UInt8.ofNat_toNat]
  rfl

/-- **The comparisons** are one function. -/
theorem comparisons_eq {equal : Bytes → Bytes → Bool} (h : equal ∈ comparisons) :
    equal = caseInsensitiveEqual := by
  funext lhs rhs
  simp only [comparisons, List.mem_cons, List.not_mem_nil, or_false] at h
  rcases h with rfl | rfl | rfl | rfl
  · exact all_range_eq (fun l r => asciiLower l == asciiLower r) (fun l r => beq_iff_eq) lhs rhs
  · exact stdEqual_eq lhs rhs
  · exact stdEqual_eq lhs rhs
  · refine all_range_eq (fun l r => foldedInt l == foldedInt r) (fun l r => ?_) lhs rhs
    rw [beq_iff_eq, foldedInt_eq, foldedInt_eq]

/-! ### Calls -/

inductive HeaderCall
  | setHeader (key value : Bytes)
  | delHeader (key : Bytes)
  deriving DecidableEq

def HeaderCall.key : HeaderCall → Bytes
  | setHeader key _ => key
  | delHeader key => key

/-- What a call does to the map. -/
def HttpMap.call (m : HttpMap) : HeaderCall → HttpMap
  | .setHeader key value => m.insertOrAssign key value
  | .delHeader key => m.erase key

namespace HttpRequest

def call (r : HttpRequest) : HeaderCall → HttpRequest
  | .setHeader key value => r.setHeader key value
  | .delHeader key => r.delHeader key

def run (r : HttpRequest) (calls : List HeaderCall) : HttpRequest := calls.foldl call r

/-- What `hasHeader` writes where it returns true. -/
def hasHeader (r : HttpRequest) (key : Bytes) : Option Bytes := r.headers.find? key

end HttpRequest

namespace HttpResponse

def delHeader (r : HttpResponse) (key : Bytes) : HttpResponse :=
  { r with headers := r.headers.erase key }

def call (r : HttpResponse) : HeaderCall → HttpResponse
  | .setHeader key value => r.setHeader key value
  | .delHeader key => r.delHeader key

def run (r : HttpResponse) (calls : List HeaderCall) : HttpResponse := calls.foldl call r

def hasHeader (r : HttpResponse) (key : Bytes) : Option Bytes := r.headers.find? key

end HttpResponse

/-- The value was set under the name, and no call since was about this name. -/
def LastSet (equal : Bytes → Bytes → Bool) (calls : List HeaderCall) (name value : Bytes) : Prop :=
  ∃ before key after, calls = before ++ .setHeader key value :: after ∧ equal key name = true ∧
    ∀ call ∈ after, equal call.key name = false

/-- A value from before the calls, none of which was about the name. -/
def Untouched (equal : Bytes → Bytes → Bool) (calls : List HeaderCall) (name : Bytes) : Prop :=
  ∀ call ∈ calls, equal call.key name = false

/-! ### Lookups -/

variable {equal : Bytes → Bytes → Bool} {calls : List HeaderCall} {call : HeaderCall}
  {name value : Bytes}

/-- A call about another name leaves the last value as it is. -/
theorem lastSet_concat_of_other (hcall : equal call.key name = false) :
    LastSet equal (calls ++ [call]) name value ↔ LastSet equal calls name value := by
  constructor
  · rintro ⟨before, key, after, hsplit, hkey, hafter⟩
    -- the new call is behind the one that sets the value, not that one itself
    rcases after.eq_nil_or_concat with rfl | ⟨after, last, rfl⟩
    · have hlast := (List.append_inj' hsplit rfl).2
      rw [List.cons.injEq] at hlast
      rw [hlast.1] at hcall
      exact absurd hkey (by rw [HeaderCall.key] at hcall; simp [hcall])
    · rw [List.concat_eq_append, ← List.cons_append, ← List.append_assoc] at hsplit
      have hcalls := (List.append_inj' hsplit rfl).1
      exact ⟨before, key, after, hcalls, hkey, fun c hc =>
        hafter c (by rw [List.concat_eq_append]; exact List.mem_append_left _ hc)⟩
  · rintro ⟨before, key, after, rfl, hkey, hafter⟩
    refine ⟨before, key, after ++ [call], by rw [List.append_assoc, List.cons_append], hkey, ?_⟩
    intro c hc
    rcases List.mem_append.mp hc with hc | hc
    · exact hafter c hc
    · rw [List.mem_singleton.mp hc]
      exact hcall

/-- After a call about the name there is its value or none. -/
theorem lastSet_concat_of_same (hcall : equal call.key name = true) :
    LastSet equal (calls ++ [call]) name value ↔ ∃ key, call = .setHeader key value := by
  constructor
  · rintro ⟨before, key, after, hsplit, hkey, hafter⟩
    -- no call behind the one that sets the value is about the name, so the new one is that one
    rcases after.eq_nil_or_concat with rfl | ⟨after, last, rfl⟩
    · have hlast := (List.append_inj' hsplit rfl).2
      rw [List.cons.injEq] at hlast
      exact ⟨key, hlast.1⟩
    · rw [List.concat_eq_append, ← List.cons_append, ← List.append_assoc] at hsplit
      have hlast := (List.append_inj' hsplit rfl).2
      have hother := hafter last (by rw [List.concat_eq_append]; exact List.mem_concat_self)
      rw [← (List.cons.inj hlast).1, hcall] at hother
      exact absurd hother.symm Bool.false_ne_true
  · rintro ⟨key, rfl⟩
    exact ⟨calls, key, [], rfl, hcall, fun c hc => absurd hc List.not_mem_nil⟩

/-- A lookup after one more call. -/
theorem find?_call (m : HttpMap) (call : HeaderCall) (name value : Bytes) :
    (m.call call).find? name = some value ↔
      if caseInsensitiveEqual call.key name = true then ∃ key, call = .setHeader key value
      else m.find? name = some value := by
  cases call with
  | setHeader key v =>
    rw [HttpMap.call, HttpMap.find?_insertOrAssign, HeaderCall.key]
    by_cases hsame : caseInsensitiveEqual key name = true
    · rw [if_pos hsame, if_pos hsame, Option.some_inj]
      exact ⟨fun h => ⟨key, by rw [h]⟩, fun ⟨_, h⟩ => (HeaderCall.setHeader.inj h).2⟩
    · rw [if_neg hsame, if_neg hsame]
  | delHeader key =>
    rw [HttpMap.call, HttpMap.find?_erase, HeaderCall.key]
    by_cases hsame : caseInsensitiveEqual key name = true
    · rw [if_pos hsame, if_pos hsame]
      exact iff_of_false (Option.some_ne_none _).symm fun ⟨_, h⟩ => HeaderCall.noConfusion h
    · rw [if_neg hsame, if_neg hsame]

/-- **A lookup after calls** gives what was set last, or what was there before. -/
theorem find?_run (m : HttpMap) (calls : List HeaderCall) (name value : Bytes) :
    (calls.foldl HttpMap.call m).find? name = some value ↔
      LastSet caseInsensitiveEqual calls name value ∨
        Untouched caseInsensitiveEqual calls name ∧ m.find? name = some value := by
  induction calls using List.reverseRecOn with
  | nil =>
    have hnone : ¬LastSet caseInsensitiveEqual [] name value := by
      rintro ⟨before, key, after, hsplit, -⟩
      exact List.append_ne_nil_of_right_ne_nil _ (List.cons_ne_nil _ _) hsplit.symm
    exact ⟨fun h => .inr ⟨fun c hc => absurd hc List.not_mem_nil, h⟩,
      fun h => (h.resolve_left hnone).2⟩
  | append_singleton calls call ih =>
    have huntouched : Untouched caseInsensitiveEqual (calls ++ [call]) name ↔
        Untouched caseInsensitiveEqual calls name ∧ caseInsensitiveEqual call.key name = false := by
      rw [Untouched, List.forall_mem_append, List.forall_mem_singleton, Untouched]
    rw [List.foldl_append, List.foldl_cons, List.foldl_nil, find?_call, huntouched]
    by_cases hsame : caseInsensitiveEqual call.key name = true
    · rw [if_pos hsame, lastSet_concat_of_same hsame]
      simp [hsame]
    · have hother := Bool.eq_false_of_not_eq_true hsame
      rw [if_neg hsame, lastSet_concat_of_other hother, ih]
      simp [hother]

theorem headers_request_run (r : HttpRequest) (calls : List HeaderCall) :
    (r.run calls).headers = calls.foldl HttpMap.call r.headers := by
  induction calls generalizing r with
  | nil => rfl
  | cons call calls ih =>
    have hcall : (r.call call).headers = r.headers.call call := by
      cases call with
      | setHeader key value =>
        -- the cookies and parameters that some names clear are no headers
        rw [HttpRequest.call, HttpRequest.setHeader]
        split <;> split <;> rfl
      | delHeader key =>
        rw [HttpRequest.call, HttpRequest.delHeader]
        split <;> split <;> rfl
    exact (ih (r.call call)).trans (by rw [hcall, List.foldl_cons])

theorem headers_response_run (r : HttpResponse) (calls : List HeaderCall) :
    (r.run calls).headers = calls.foldl HttpMap.call r.headers := by
  induction calls generalizing r with
  | nil => rfl
  | cons call calls ih =>
    have hcall : (r.call call).headers = r.headers.call call := by
      cases call <;> rfl
    exact (ih (r.call call)).trans (by rw [hcall, List.foldl_cons])

/-! ### The order -/

instance strictWeakOrder_caseInsensitiveLess :
    IsStrictWeakOrder Bytes fun a b => caseInsensitiveLess a b = true where
  irrefl a h := lt_irrefl (foldedName a) (caseInsensitiveLess_iff.mp h)
  trans _ _ _ := caseInsensitiveLess_trans
  incomp_trans a b c hab hbc := by
    have heq := caseInsensitiveEqual_iff_not_less.mpr hab
    have heq' := caseInsensitiveEqual_iff_not_less.mpr hbc
    rw [caseInsensitiveEqual_iff] at heq heq'
    exact caseInsensitiveEqual_iff_not_less.mp (caseInsensitiveEqual_iff.mpr (heq.trans heq'))

/-- The entry of a name is the only one that a comparison recognises. -/
theorem filter_eq_find? (m : HttpMap) (name : Bytes) :
    (m.entries.filter fun e => caseInsensitiveEqual e.1 name).map (·.2) =
      (m.find? name).toList := by
  cases hfind : m.find? name with
  | none =>
    have hnone : m.entries.filter (fun e => caseInsensitiveEqual e.1 name) = [] := by
      refine List.filter_eq_nil_iff.mpr fun e he => ?_
      rw [HttpMap.find?_eq_none_iff.mp hfind e he]
      exact Bool.false_ne_true
    rw [hnone]
    rfl
  | some value =>
    -- the entries in front of this one and behind it have other names
    obtain ⟨front, e, back, hsplit, hname, hvalue, hother⟩ := HttpMap.exists_split hfind
    have hnil : ∀ es : List (Bytes × Bytes), (∀ e' ∈ es, e' ∈ front ++ back) →
        es.filter (fun e => caseInsensitiveEqual e.1 name) = [] := by
      intro es hes
      refine List.filter_eq_nil_iff.mpr fun e' he' => ?_
      rw [hother e' (hes e' he')]
      exact Bool.false_ne_true
    rw [hsplit, List.filter_append, List.filter_cons, if_pos hname,
      hnil front fun _ h => List.mem_append_left _ h,
      hnil back fun _ h => List.mem_append_right _ h]
    simp [hvalue]

/-- **Names** are compared alike everywhere: the maps may be ordered by their comparison, its
equivalence is what the parser, the request, the response and the client compare with, and so a
lookup in any case gives what was set last under a name that they take for this one. -/
theorem header_names_agree :
    (IsStrictWeakOrder Bytes fun a b => caseInsensitiveLess a b = true) ∧
    ∀ equal ∈ comparisons,
      (∀ a b, equal a b = true ↔
        ¬caseInsensitiveLess a b = true ∧ ¬caseInsensitiveLess b a = true) ∧
      (∀ (r : HttpRequest) calls name value, (r.run calls).hasHeader name = some value ↔
        LastSet equal calls name value ∨
          Untouched equal calls name ∧ r.hasHeader name = some value) ∧
      (∀ (r : HttpResponse) calls name value, (r.run calls).hasHeader name = some value ↔
        LastSet equal calls name value ∨
          Untouched equal calls name ∧ r.hasHeader name = some value) ∧
      ∀ (m : HttpMap) name, (m.entries.filter fun e => equal e.1 name).map (·.2) =
        (m.find? name).toList := by
  refine ⟨strictWeakOrder_caseInsensitiveLess, fun equal hequal => ?_⟩
  rw [comparisons_eq hequal]
  refine ⟨fun a b => caseInsensitiveEqual_iff_not_less, fun r calls name value => ?_,
    fun r calls name value => ?_, filter_eq_find?⟩
  · rw [HttpRequest.hasHeader, headers_request_run]
    exact find?_run r.headers calls name value
  · rw [HttpResponse.hasHeader, headers_response_run]
    exact find?_run r.headers calls name value

end Http

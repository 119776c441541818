/-
Conversion between values and YAML nodes.

The types are those that the containers build from `bool`, the integers and strings.  A set or a
map is the list of its elements in their order, which the elements of a container within it are
compared by in turn.

* `KeyedSet.foldl_insert` — a set is made up again from its elements;
* `foldlM_forall₂` — the loop over the elements or the items of a container;
* `fromNode_toNode` — the node of a value is converted back to it.
-/
import Droplet.Config.Arithmetic
import Droplet.Config.Reload
import Droplet.Lib.KeyedSet
import Mathlib.Data.List.Lex
import Mathlib.Data.Prod.Lex

open Http StringUtils

namespace Config

/-! ### Types -/

inductive ConfigType
  | bool
  | int (t : IntType)
  | string
  | vector (item : ConfigType)
  | list (item : ConfigType)
  | set (item : ConfigType)
  | map (mapped : ConfigType)
  deriving DecidableEq

/-- A type with the order of its values. -/
structure OrderedType where
  Carrier : Type
  order : LinearOrder Carrier

/-- Strings are compared byte by byte. -/
def textKey (text : Bytes) : List ℕ := text.map UInt8.toNat

theorem textKey_injective : Function.Injective textKey :=
  List.map_injective_iff.mpr fun _ _ => UInt8.toNat_inj.mp

def entryKey {α : Type} (entry : Bytes × α) : List ℕ := textKey entry.1

/-- Entries of a map are compared by their keys first. -/
def entryLex {α : Type} (entry : Bytes × α) : List ℕ ×ₗ α := toLex (entryKey entry, entry.2)

theorem entryLex_injective {α : Type} : Function.Injective (entryLex (α := α)) := by
  intro a b h
  obtain ⟨hkey, hvalue⟩ := Prod.mk.inj (toLex.injective h)
  exact Prod.ext (textKey_injective hkey) hvalue

/-- `std::set`. -/
def SortedSet (α : Type) [LinearOrder α] : Type :=
  { elements : List α // KeyedSet.Ordered id elements }

namespace SortedSet

variable {α : Type} [LinearOrder α]

def empty : SortedSet α := ⟨[], List.Pairwise.nil⟩

def emplace (s : SortedSet α) (value : α) : SortedSet α :=
  ⟨KeyedSet.insert id value s.1, KeyedSet.ordered_insert s.2⟩

instance : LinearOrder (SortedSet α) := LinearOrder.lift' Subtype.val Subtype.val_injective

end SortedSet

/-- `std::map` from strings. -/
def SortedMap (α : Type) : Type :=
  { entries : List (Bytes × α) // KeyedSet.Ordered entryKey entries }

namespace SortedMap

variable {α : Type}

def empty : SortedMap α := ⟨[], List.Pairwise.nil⟩

def emplace (m : SortedMap α) (entry : Bytes × α) : SortedMap α :=
  ⟨KeyedSet.insert entryKey entry m.1, KeyedSet.ordered_insert m.2⟩

instance [LinearOrder α] : LinearOrder (SortedMap α) :=
  LinearOrder.lift' (fun m => m.1.map entryLex) fun _ _ h =>
    Subtype.ext (List.map_injective_iff.mpr entryLex_injective h)

end SortedMap

namespace ConfigType

def ordered : ConfigType → OrderedType
  | bool => ⟨Bool, inferInstance⟩
  | int t => ⟨{ value : ℤ // t.InRange value }, inferInstance⟩
  | string => ⟨Bytes, LinearOrder.lift' textKey textKey_injective⟩
  | vector item | list item =>
    letI := item.ordered.order
    ⟨List item.ordered.Carrier, inferInstance⟩
  | set item =>
    letI := item.ordered.order
    ⟨SortedSet item.ordered.Carrier, inferInstance⟩
  | map mapped =>
    letI := mapped.ordered.order
    ⟨SortedMap mapped.ordered.Carrier, inferInstance⟩

abbrev Value (t : ConfigType) : Type := t.ordered.Carrier

instance (t : ConfigType) : LinearOrder t.ordered.Carrier := t.ordered.order

end ConfigType

/-! ### Conversions -/

def trueWords : List Bytes :=
  [ascii "true", ascii "yes", ascii "on", ascii "y", ascii "1", ascii "t"]

def falseWords : List Bytes :=
  [ascii "false", ascii "no", ascii "off", ascii "n", ascii "0", ascii "f"]

def parseBool (text : Bytes) : Option Bool :=
  let body := trim text
  if trueWords.any fun word => caseInsensitiveEqual body word then some true
  else if falseWords.any fun word => caseInsensitiveEqual body word then some false
  else none

/-- `ScalarText`; a node that does not exist is `none`. -/
def scalarText (node : Option YamlNode) (typeName : String) : Except ConvertError Bytes :=
  match node with
  | none => .error ⟨typeName, .noNode, []⟩
  | some (.scalar text) => .ok text
  | some _ => .error ⟨typeName, .notScalar, []⟩

section Containers

variable {ε α β γ : Type}

/-- A loop that converts each item and puts it into a container. -/
def convertAll (convert : α → Except ε β) (put : γ → β → γ) (container : γ) (items : List α) :
    Except ε γ :=
  items.foldlM (fun container item => do return put container (← convert item)) container

/-- `SequenceConvert::FromNode`, where `put` is `emplace_back` or `emplace`. -/
def sequenceFromNode (convert : YamlNode → Except ConvertError β) (put : γ → β → γ) (empty : γ)
    (typeName : String) (node : Option YamlNode) : Except ConvertError γ :=
  match node with
  | some (.sequence items) => convertAll convert put empty items
  | _ => .error ⟨typeName, .notSequence, []⟩

def sequenceToNode (convert : α → Except ConvertError YamlNode) (container : List α) :
    Except ConvertError YamlNode := do
  return .sequence (← convertAll convert (fun items item => items ++ [item]) [] container)

def entryFromNode (convert : YamlNode → Except ConvertError β) (typeName : String)
    (entry : YamlNode × YamlNode) : Except ConvertError (Bytes × β) :=
  match entry.1 with
  | .scalar key => do return (key, ← convert entry.2)
  | _ => .error ⟨typeName, .keyNotScalar, []⟩

/-- `StringMapConvert::FromNode`. -/
def mapFromNode (convert : YamlNode → Except ConvertError β) (put : γ → Bytes × β → γ)
    (empty : γ) (typeName : String) (node : Option YamlNode) : Except ConvertError γ :=
  match node with
  | some (.map entries) => convertAll (entryFromNode convert typeName) put empty entries
  | _ => .error ⟨typeName, .notMap, []⟩

def entryToNode (convert : α → Except ConvertError YamlNode) (entry : Bytes × α) :
    Except ConvertError (Bytes × YamlNode) := do
  return (entry.1, ← convert entry.2)

/-- The assignment `node[key] = value`. -/
def assign (entries : List (YamlNode × YamlNode)) (key : Bytes) (value : YamlNode) :
    List (YamlNode × YamlNode) :=
  match entries with
  | [] => [(.scalar key, value)]
  | (.scalar text, old) :: entries =>
    if text = key then (.scalar text, value) :: entries
    else (.scalar text, old) :: assign entries key value
  | entry :: entries => entry :: assign entries key value

def mapToNode (convert : α → Except ConvertError YamlNode) (container : List (Bytes × α)) :
    Except ConvertError YamlNode := do
  return .map (← convertAll (entryToNode convert)
    (fun entries entry => assign entries entry.1 entry.2) [] container)

end Containers

/-- A number that is parsed is in range. -/
theorem inRange_of_parseArithmetic {t : IntType} {text : Bytes} {typeName : String} {value : ℤ}
    (h : parseArithmetic t text typeName = .ok value) : t.InRange value := by
  obtain ⟨_, _, hrange, _⟩ := parseArithmetic_iff.mp h
  exact hrange

/-- `ParseArithmetic`, with the range of its result. -/
def parseInteger (t : IntType) (text : Bytes) (typeName : String) :
    Except ConvertError { value : ℤ // t.InRange value } :=
  match h : parseArithmetic t text typeName with
  | .error e => .error e
  | .ok value => .ok ⟨value, inRange_of_parseArithmetic h⟩

theorem parseInteger_eq {t : IntType} {text : Bytes} {typeName : String}
    {value : { value : ℤ // t.InRange value }}
    (h : parseArithmetic t text typeName = .ok value.1) :
    parseInteger t text typeName = .ok value := by
  rw [parseInteger]
  split
  · next e he =>
    rw [h] at he
    cases he
  · next read hread =>
    rw [h] at hread
    exact congrArg Except.ok (Subtype.ext (Except.ok.inj hread).symm)

variable (typeName : ConfigType → String)

/-- What `YAML::convert<bool>` writes. -/
def boolText (value : Bool) : Bytes := if value then ascii "true" else ascii "false"

/-- `ConfigConvert<T>::ToNode`. -/
def toNode : (t : ConfigType) → t.Value → Except ConvertError YamlNode
  | .bool, value => .ok (.scalar (boolText value))
  | .int t, value => do
    return .scalar (← arithmeticToNode (value : { value : ℤ // t.InRange value }).1
      (typeName (.int t)))
  | .string, value => .ok (.scalar (value : Bytes))
  | .vector item, value | .list item, value =>
    sequenceToNode (toNode item) (value : List item.Value)
  | .set item, value => sequenceToNode (toNode item) (value : SortedSet item.Value).1
  | .map mapped, value => mapToNode (toNode mapped) (value : SortedMap mapped.Value).1

/-- `ConfigConvert<T>::FromNode`. -/
def fromNode : (t : ConfigType) → Option YamlNode → Except ConvertError t.Value
  | .bool, node => do
    let text ← scalarText node (typeName .bool)
    match parseBool text with
    | none => .error ⟨typeName .bool, .notBool, text⟩
    | some value => return value
  | .int t, node => do
    parseInteger t (← scalarText node (typeName (.int t))) (typeName (.int t))
  | .string, node => scalarText node (typeName .string)
  | .vector item, node =>
    sequenceFromNode (fun node => fromNode item (some node))
      (fun (container : List item.Value) value => container ++ [value]) [] (typeName (.vector item))
      node
  | .list item, node =>
    sequenceFromNode (fun node => fromNode item (some node))
      (fun (container : List item.Value) value => container ++ [value]) [] (typeName (.list item))
      node
  | .set item, node =>
    sequenceFromNode (fun node => fromNode item (some node))
      (SortedSet.emplace (α := item.Value)) .empty (typeName (.set item)) node
  | .map mapped, node =>
    mapFromNode (fun node => fromNode mapped (some node))
      (SortedMap.emplace (α := mapped.Value)) .empty (typeName (.map mapped)) node

/-! ### Loops -/

section Loops

variable {ε α β γ : Type} {f : α → Except ε β} {g : β → Except ε α} {put : γ → β → γ}
  {items : List α} {nodes : List β}

/-- **A loop** whose conversions all succeed. -/
theorem convertAll_eq (h : List.Forall₂ (fun item node => f item = .ok node) items nodes)
    (container : γ) : convertAll f put container items = .ok (nodes.foldl put container) := by
  induction h generalizing container with
  | nil => rfl
  | @cons item node items nodes hitem _ ih =>
    have hloop := ih (put container node)
    rw [convertAll] at hloop ⊢
    rw [List.foldlM_cons, hitem, List.foldl_cons]
    exact hloop

/-- Items that are all converted, and back. -/
theorem exists_forall₂ (h : ∀ item, ∃ node, f item = .ok node ∧ g node = .ok item)
    (items : List α) : ∃ nodes, List.Forall₂ (fun item node => f item = .ok node) items nodes ∧
      List.Forall₂ (fun node item => g node = .ok item) nodes items := by
  induction items with
  | nil => exact ⟨[], .nil, .nil⟩
  | cons item items ih =>
    obtain ⟨node, hto, hfrom⟩ := h item
    obtain ⟨nodes, htos, hfroms⟩ := ih
    exact ⟨node :: nodes, .cons hto htos, .cons hfrom hfroms⟩

theorem foldl_append_singleton (container : List α) :
    items.foldl (fun container item => container ++ [item]) container = container ++ items := by
  induction items generalizing container with
  | nil => exact (List.append_nil container).symm
  | cons item items ih => rw [List.foldl_cons, ih, List.append_assoc, List.singleton_append]

end Loops

theorem foldl_emplace_set {α : Type} [LinearOrder α] (s : SortedSet α) :
    s.1.foldl SortedSet.emplace .empty = s := by
  -- the elements come in order, so that each is inserted last
  suffices ∀ (elements : List α) (t : SortedSet α), (elements.foldl SortedSet.emplace t).1 =
      elements.foldl (fun l a => KeyedSet.insert id a l) t.1 from
    Subtype.ext ((this s.1 .empty).trans (KeyedSet.foldl_insert (l := []) s.2))
  intro elements
  induction elements with
  | nil => exact fun t => rfl
  | cons a elements ih => exact fun t => ih (t.emplace a)

theorem foldl_emplace_map {α : Type} (m : SortedMap α) :
    m.1.foldl SortedMap.emplace .empty = m := by
  suffices ∀ (entries : List (Bytes × α)) (t : SortedMap α),
      (entries.foldl SortedMap.emplace t).1 =
        entries.foldl (fun l a => KeyedSet.insert entryKey a l) t.1 from
    Subtype.ext ((this m.1 .empty).trans (KeyedSet.foldl_insert (l := []) m.2))
  intro entries
  induction entries with
  | nil => exact fun t => rfl
  | cons a entries ih => exact fun t => ih (t.emplace a)

/-! ### Assignments -/

def scalarEntry (entry : Bytes × YamlNode) : YamlNode × YamlNode := (.scalar entry.1, entry.2)

/-- A new key comes last. -/
theorem assign_new {entries : List (Bytes × YamlNode)} {key : Bytes} {value : YamlNode}
    (hnew : ∀ entry ∈ entries, entry.1 ≠ key) :
    assign (entries.map scalarEntry) key value = (entries ++ [(key, value)]).map scalarEntry := by
  induction entries with
  | nil => rfl
  | cons entry entries ih =>
    rw [List.map_cons, scalarEntry, assign, if_neg (hnew entry List.mem_cons_self),
      ih fun e he => hnew e (List.mem_cons_of_mem entry he)]
    rfl

theorem foldl_assign (front : List (Bytes × YamlNode)) {entries : List (Bytes × YamlNode)}
    (h : KeyedSet.Ordered entryKey (front ++ entries)) :
    entries.foldl (fun nodes entry => assign nodes entry.1 entry.2) (front.map scalarEntry) =
      (front ++ entries).map scalarEntry := by
  induction entries generalizing front with
  | nil => rw [List.foldl_nil, List.append_nil]
  | cons entry entries ih =>
    -- the keys are in order, so that no assignment finds its key
    have hnew : ∀ e ∈ front, e.1 ≠ entry.1 := by
      intro e he heq
      have hlt := (List.pairwise_append.mp h).2.2 e he entry List.mem_cons_self
      rw [entryKey, entryKey, heq] at hlt
      exact lt_irrefl _ hlt
    rw [List.append_cons] at h ⊢
    rw [List.foldl_cons, assign_new hnew]
    exact ih _ h

/-! ### Round trips -/

theorem parseBool_boolText (value : Bool) : parseBool (boolText value) = some value := by
  cases value <;> decide

section Containers

variable {α γ : Type} {f : α → Except ConvertError YamlNode}
  {g : YamlNode → Except ConvertError α}

theorem sequence_roundTrip (put : γ → α → γ) (empty : γ) (name : String)
    (h : ∀ item, ∃ node, f item = .ok node ∧ g node = .ok item) (items : List α) :
    ∃ nodes, sequenceToNode f items = .ok (.sequence nodes) ∧
      sequenceFromNode g put empty name (some (.sequence nodes)) =
        .ok (items.foldl put empty) := by
  obtain ⟨nodes, hto, hfrom⟩ := exists_forall₂ h items
  refine ⟨nodes, ?_, convertAll_eq hfrom empty⟩
  rw [sequenceToNode, convertAll_eq hto [], foldl_append_singleton]
  rfl

theorem list_roundTrip (name : String)
    (h : ∀ item, ∃ node, f item = .ok node ∧ g node = .ok item) (items : List α) :
    ∃ nodes, sequenceToNode f items = .ok (.sequence nodes) ∧
      sequenceFromNode g (fun container value => container ++ [value]) [] name
        (some (.sequence nodes)) = .ok items := by
  obtain ⟨nodes, hto, hfrom⟩ :=
    sequence_roundTrip (fun container value => container ++ [value]) [] name h items
  rw [foldl_append_singleton, List.nil_append] at hfrom
  exact ⟨nodes, hto, hfrom⟩

theorem set_roundTrip [LinearOrder α] (name : String)
    (h : ∀ item, ∃ node, f item = .ok node ∧ g node = .ok item) (s : SortedSet α) :
    ∃ nodes, sequenceToNode f s.1 = .ok (.sequence nodes) ∧
      sequenceFromNode g SortedSet.emplace .empty name (some (.sequence nodes)) = .ok s := by
  obtain ⟨nodes, hto, hfrom⟩ := sequence_roundTrip SortedSet.emplace .empty name h s.1
  rw [foldl_emplace_set] at hfrom
  exact ⟨nodes, hto, hfrom⟩

/-- Entries keep their keys. -/
theorem ordered_of_forall₂ {items : List (Bytes × α)} {nodes : List (Bytes × YamlNode)}
    (h : List.Forall₂ (fun item node => entryToNode f item = .ok node) items nodes)
    (hordered : KeyedSet.Ordered entryKey items) :
    KeyedSet.Ordered entryKey nodes := by
  have hkeys : nodes.map entryKey = items.map entryKey := by
    clear hordered
    induction h with
    | nil => rfl
    | @cons item node items nodes hitem _ ih =>
      rw [entryToNode] at hitem
      cases hvalue : f item.2 with
      | error e =>
        rw [hvalue] at hitem
        cases hitem
      | ok value =>
        rw [hvalue] at hitem
        cases hitem
        rw [List.map_cons, List.map_cons, ih]
        rfl
  rw [KeyedSet.Ordered, ← List.pairwise_map (R := (· < ·))] at hordered ⊢
  rwa [hkeys]

theorem map_roundTrip (name : String)
    (h : ∀ item, ∃ node, f item = .ok node ∧ g node = .ok item) (m : SortedMap α) :
    ∃ entries, mapToNode f m.1 = .ok (.map entries) ∧
      mapFromNode g SortedMap.emplace .empty name (some (.map entries)) = .ok m := by
  -- an entry is converted behind its key, which stays
  have hentry : ∀ entry : Bytes × α, ∃ node : Bytes × YamlNode, entryToNode f entry = .ok node ∧
      entryFromNode g name (scalarEntry node) = .ok entry := by
    intro entry
    obtain ⟨node, hto, hfrom⟩ := h entry.2
    refine ⟨(entry.1, node), ?_, ?_⟩
    · rw [entryToNode, hto]
      rfl
    · rw [entryFromNode, scalarEntry, hfrom]
      rfl
  obtain ⟨nodes, hto, hfrom⟩ := exists_forall₂ hentry m.1
  have hassign := foldl_assign [] (ordered_of_forall₂ hto m.2)
  refine ⟨nodes.map scalarEntry, ?_, ?_⟩
  · rw [mapToNode, convertAll_eq hto [], ← List.map_nil (f := scalarEntry), hassign]
    rfl
  · have hentries : List.Forall₂ (fun node item => entryFromNode g name node = .ok item)
        (nodes.map scalarEntry) m.1 := List.forall₂_map_left_iff.mpr hfrom
    exact (convertAll_eq hentries SortedMap.empty).trans (congrArg Except.ok (foldl_emplace_map m))

end Containers

/-- **Nodes** are converted back. -/
theorem fromNode_toNode (typeName : ConfigType → String) (t : ConfigType) (value : t.Value) :
    ∃ node, toNode typeName t value = .ok node ∧ fromNode typeName t (some node) = .ok value := by
  induction t with
  | bool =>
    refine ⟨.scalar (boolText value), rfl, ?_⟩
    have hparse := parseBool_boolText value
    change (match parseBool (boolText value) with
      | none => _
      | some value => _) = _
    rw [hparse]
    rfl
  | int t =>
    obtain ⟨text, htext, -, hparse⟩ := parseArithmetic_arithmeticToNode
      (typeName (.int t)) (value : { value : ℤ // t.InRange value }).2
    refine ⟨.scalar text, ?_, ?_⟩
    · rw [toNode, htext]
      rfl
    · exact parseInteger_eq hparse
  | string => exact ⟨.scalar value, rfl, rfl⟩
  | vector item ih =>
    obtain ⟨nodes, hto, hfrom⟩ := list_roundTrip (typeName (.vector item)) ih value
    exact ⟨.sequence nodes, hto, hfrom⟩
  | list item ih =>
    obtain ⟨nodes, hto, hfrom⟩ := list_roundTrip (typeName (.list item)) ih value
    exact ⟨.sequence nodes, hto, hfrom⟩
  | set item ih =>
    obtain ⟨nodes, hto, hfrom⟩ := set_roundTrip (typeName (.set item)) ih value
    exact ⟨.sequence nodes, hto, hfrom⟩
  | map mapped ih =>
    obtain ⟨entries, hto, hfrom⟩ := map_roundTrip (typeName (.map mapped)) ih value
    exact ⟨.map entries, hto, hfrom⟩

end Config

/-
Configuration values as texts.

`toString` gives the text of a scalar as it is, and what the library emits for any other node;
`fromString` loads either.  A conversion that throws leaves the variable alone.

* `isContainer_toNode`, `isWord_toNode` — the nodes that values are made into;
* `fromNode_unchanged`, `fromString_unchanged` — a conversion that fails changes nothing;
* `roundTrips_iff` — a value is read back from its text, but for a string that is no plain
  scalar.
-/
import Droplet.Config.Yaml
import Droplet.Config.Listeners

open Http

namespace Config

/-- A `ConfigVar` between calls: the value, who listens, and who was told of what. -/
structure Variable (t : ConfigType) where
  value : t.Value
  listeners : List ListenerId
  received : List (ListenerId × t.Value × t.Value)

variable {t : ConfigType} (y : Yaml) (typeName : ConfigType → String)

namespace Variable

def setValue (var : Variable t) (value : t.Value) : Variable t :=
  if var.value = value then var
  else
    { var with
      value := value
      received := var.received ++ var.listeners.map fun id => (id, var.value, value) }

/-- What `fromNode` returns, and what it leaves. -/
def fromNode (var : Variable t) (node : Option YamlNode) : Bool × Variable t :=
  match Config.fromNode typeName t node with
  | .ok value => (true, var.setValue value)
  | .error _ => (false, var)

def toString (var : Variable t) : Bytes :=
  match Config.toNode typeName t var.value with
  | .error _ => []
  | .ok (.scalar text) => text
  | .ok node => (y.emit node).getD []

def fromString (var : Variable t) (text : Bytes) : Bool × Variable t :=
  match y.load text with
  | none => (false, var)
  | some node => var.fromNode typeName (some node)

end Variable

/-- The value is read back from its text. -/
def RoundTrips (var : Variable t) : Prop :=
  (var.fromString y typeName (var.toString y typeName)).1 = true ∧
    (var.fromString y typeName (var.toString y typeName)).2.value = var.value

/-- A string that is a plain scalar, or a value of another type. -/
def PlainValue : (t : ConfigType) → t.Value → Prop
  | .string, value => y.Plain (value : Bytes)
  | _, _ => True

/-! ### Nodes of values -/

variable {y typeName} {value : t.Value} {node : YamlNode} {text : Bytes} {var : Variable t}

theorem isContainer_sequenceToNode {α : Type} {f : α → Except ConvertError YamlNode}
    {items : List α} (h : sequenceToNode f items = .ok node) : node.IsContainer := by
  rw [sequenceToNode] at h
  cases hitems : convertAll f (fun items item => items ++ [item]) [] items with
  | error e =>
    rw [hitems] at h
    cases h
  | ok nodes =>
    rw [hitems] at h
    cases h
    trivial

theorem isContainer_mapToNode {α : Type} {f : α → Except ConvertError YamlNode}
    {entries : List (Bytes × α)} (h : mapToNode f entries = .ok node) : node.IsContainer := by
  rw [mapToNode] at h
  cases hentries : convertAll (entryToNode f)
      (fun entries entry => assign entries entry.1 entry.2) [] entries with
  | error e =>
    rw [hentries] at h
    cases h
  | ok nodes =>
    rw [hentries] at h
    cases h
    trivial

/-- The node of a value: that of a container, of a word, or the string itself. -/
theorem toNode_cases (h : Config.toNode typeName t value = .ok node) :
    node.IsContainer ∨ (∃ text, node = .scalar text ∧ IsWord text) ∨
      ∃ text : Bytes, node = .scalar text ∧ (PlainValue y t value ↔ y.Plain text) := by
  cases t with
  | bool =>
    cases h
    refine .inr (.inl ⟨_, rfl, ?_⟩)
    cases hvalue : (value : Bool) with
    | false => exact .inr (.inl rfl)
    | true => exact .inl rfl
  | int t =>
    obtain ⟨text, htext, hdecimal, -⟩ := parseArithmetic_arithmeticToNode (typeName (.int t))
      (value : { value : ℤ // t.InRange value }).2
    rw [toNode, htext] at h
    cases h
    exact .inr (.inl ⟨text, rfl, .inr (.inr ⟨_, hdecimal⟩)⟩)
  | string =>
    cases h
    exact .inr (.inr ⟨_, rfl, Iff.rfl⟩)
  | vector item => exact .inl (isContainer_sequenceToNode h)
  | list item => exact .inl (isContainer_sequenceToNode h)
  | set item => exact .inl (isContainer_sequenceToNode h)
  | map mapped => exact .inl (isContainer_mapToNode h)

/-! ### Texts of values -/

/-- The text of a value, and what it is loaded as. -/
theorem load_toString (hy : y.Documented) (h : Config.toNode typeName t var.value = .ok node)
    (hplain : PlainValue y t var.value) : y.load (var.toString y typeName) = some node := by
  rw [Variable.toString, h]
  rcases toNode_cases (y := y) h with hcontainer | ⟨text, rfl, hword⟩ | ⟨text, rfl, htext⟩
  · obtain ⟨text, hemit, hload⟩ := hy.load_emit node hcontainer
    cases node with
    | null => exact hcontainer.elim
    | scalar text => exact hcontainer.elim
    | sequence items =>
      dsimp only
      rw [hemit]
      exact hload
    | map entries =>
      dsimp only
      rw [hemit]
      exact hload
  · exact hy.load_word text hword
  · exact htext.mp hplain

theorem value_setValue (var : Variable t) (value : t.Value) :
    (var.setValue value).value = value := by
  rw [Variable.setValue]
  split
  · next h => exact h
  · rfl

/-- **A string** that is no plain scalar is loaded as something else. -/
theorem not_roundTrips (var : Variable .string) (h : ¬y.Plain var.value) :
    ¬RoundTrips y typeName var := by
  rintro ⟨hok, hvalue⟩
  have htext : var.toString y typeName = var.value := rfl
  rw [htext] at hok hvalue
  unfold Variable.fromString at hok hvalue
  cases hload : y.load var.value with
  | none =>
    rw [hload] at hok
    exact Bool.false_ne_true hok
  | some node =>
    rw [hload] at hok hvalue
    dsimp only [Variable.fromNode] at hok hvalue
    -- a string is taken from scalars alone, and then it is another one
    cases node with
    | scalar text =>
      have hset : text = var.value := (value_setValue var text).symm.trans hvalue
      exact h (hload.trans (congrArg (fun text => some (YamlNode.scalar text)) hset))
    | null => exact Bool.false_ne_true hok
    | sequence items => exact Bool.false_ne_true hok
    | map entries => exact Bool.false_ne_true hok

theorem roundTrips (hy : y.Documented) (hplain : PlainValue y t var.value) :
    RoundTrips y typeName var := by
  obtain ⟨node, hto, hfrom⟩ := fromNode_toNode typeName t var.value
  have hload := load_toString hy hto hplain
  rw [RoundTrips, Variable.fromString, hload]
  dsimp only [Variable.fromNode]
  rw [hfrom]
  exact ⟨rfl, value_setValue var var.value⟩

/-! ### Failures -/

theorem fromNode_unchanged (var : Variable t) (node : Option YamlNode)
    (h : (var.fromNode typeName node).1 = false) : (var.fromNode typeName node).2 = var := by
  rw [Variable.fromNode] at h ⊢
  split
  · next value hvalue =>
    rw [hvalue] at h
    exact absurd h.symm Bool.false_ne_true
  · rfl

theorem fromString_unchanged (var : Variable t) (text : Bytes)
    (h : (var.fromString y typeName text).1 = false) :
    (var.fromString y typeName text).2 = var := by
  rw [Variable.fromString] at h ⊢
  split
  · rfl
  · next node hnode =>
    rw [hnode] at h
    exact fromNode_unchanged var (some node) h

/-- **Texts** of values are read back exactly where the value is no string, or one that is a
plain scalar; and what is not read, or no node of the type, leaves the value and tells nobody. -/
theorem roundTrips_iff (y : Yaml) (hy : y.Documented) (typeName : ConfigType → String) :
    (∀ (t : ConfigType) (var : Variable t),
      RoundTrips y typeName var ↔ PlainValue y t var.value) ∧
    (∀ (t : ConfigType) (var : Variable t) node, (var.fromNode typeName node).1 = false →
      (var.fromNode typeName node).2 = var) ∧
    ∀ (t : ConfigType) (var : Variable t) text, (var.fromString y typeName text).1 = false →
      (var.fromString y typeName text).2 = var := by
  refine ⟨fun t var => ⟨fun h => ?_, roundTrips hy⟩, fun t => fromNode_unchanged,
    fun t => fromString_unchanged⟩
  cases t with
  | string =>
    by_contra hplain
    exact not_roundTrips var hplain h
  | bool | int t | vector item | list item | set item | map mapped => trivial

/-- In flow style a list of strings is read back, whatever they are. -/
theorem roundTrips_flowStyle :
    RoundTrips flowStyle (fun _ => "T")
      (⟨[ascii "a: b", []], [1], []⟩ : Variable (.vector .string)) :=
  ((roundTrips_iff flowStyle documented_flowStyle fun _ => "T").1 (.vector .string) _).mpr trivial

/-- The empty string is loaded as a null. -/
theorem not_roundTrips_empty : ¬∀ y : Yaml, y.Documented →
    ∀ typeName (t : ConfigType) (var : Variable t), RoundTrips y typeName var := by
  intro h
  have hplain : ¬flowStyle.Plain [] := fun h => by cases h
  exact not_roundTrips ⟨[], [], []⟩ hplain
    (h flowStyle documented_flowStyle (fun _ => "std::string") .string _)

end Config

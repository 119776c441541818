/-
The YAML library.

The conversions of a configuration value to text and back go through a library that loads and
emits documents.  It is a parameter here, with what is relied on as its documented behaviour.
The flow style, where every container is written in brackets and every scalar in quotes, has
this behaviour.

* `Yaml.Documented` — what is relied on;
* `readNode_writeNode` — a node in flow style is read back;
* `documented_flowStyle` — a library that writes this style.
-/
import Droplet.Config.Convert

open Http

namespace Config

/-- `YAML::Load`, which throws at texts that are no documents, and `YAML::Emitter`, which is not
good where it can not write a node. -/
structure Yaml where
  load : Bytes → Option YamlNode
  emit : YamlNode → Option Bytes

def YamlNode.IsContainer : YamlNode → Prop
  | .sequence _ | .map _ => True
  | .null | .scalar _ => False

/-- The texts that numbers and the two truth values have. -/
def IsWord (text : Bytes) : Prop :=
  text = ascii "true" ∨ text = ascii "false" ∨ ∃ value, Decimal text value

namespace Yaml

/-- A text that is a plain scalar as a whole. -/
def Plain (y : Yaml) (text : Bytes) : Prop := y.load text = some (.scalar text)

/-- Loading inverts emitting on sequences and maps, words are plain scalars, and the empty text
is the document of a null. -/
structure Documented (y : Yaml) : Prop where
  load_emit : ∀ node, node.IsContainer → ∃ text, y.emit node = some text ∧ y.load text = some node
  load_word : ∀ text, IsWord text → y.Plain text
  load_empty : y.load [] = some .null

end Yaml

/-! ### Flow style -/

/-- A quote or a backslash is written behind a backslash. -/
def escape (text : Bytes) : Bytes :=
  text.flatMap fun b => if b = 34 ∨ b = 92 then [92, b] else [b]

mutual

def writeNode : YamlNode → Bytes
  | .null => [126]
  | .scalar text => 34 :: (escape text ++ [34])
  | .sequence items => 91 :: writeItems items
  | .map entries => 123 :: writeEntries entries

def writeItems : List YamlNode → Bytes
  | [] => [93]
  | item :: items => writeNode item ++ 44 :: writeItems items

def writeEntries : List (YamlNode × YamlNode) → Bytes
  | [] => [125]
  | (key, value) :: entries =>
    writeNode key ++ 58 :: 32 :: (writeNode value ++ 44 :: writeEntries entries)

end

/-- What is between quotes, and what is behind them; `escaped` is behind a backslash. -/
def readQuoted (escaped : Bool) : Bytes → Option (Bytes × Bytes)
  | [] => none
  | b :: rest =>
    if escaped then (readQuoted false rest).map fun read => (b :: read.1, read.2)
    else if b = 34 then some ([], rest)
    else if b = 92 then readQuoted true rest
    else (readQuoted false rest).map fun read => (b :: read.1, read.2)

/-- What is behind these bytes. -/
def expect (marks text : Bytes) : Option Bytes :=
  if marks <+: text then some (text.drop marks.length) else none

mutual

/-- The node in front of a text, with as many steps as are given. -/
def readNode : ℕ → Bytes → Option (YamlNode × Bytes)
  | 0, _ => none
  | _, [] => none
  | steps + 1, b :: rest =>
    if b = 126 then some (.null, rest)
    else if b = 34 then (readQuoted false rest).map fun read => (.scalar read.1, read.2)
    else if b = 91 then (readItems steps rest).map fun read => (.sequence read.1, read.2)
    else if b = 123 then (readEntries steps rest).map fun read => (.map read.1, read.2)
    else none

def readItems : ℕ → Bytes → Option (List YamlNode × Bytes)
  | 0, _ => none
  | steps + 1, text =>
    if text.head? = some 93 then some ([], text.drop 1)
    else
      (readNode steps text).bind fun item =>
        (expect [44] item.2).bind fun rest =>
          (readItems steps rest).map fun items => (item.1 :: items.1, items.2)

def readEntries : ℕ → Bytes → Option (List (YamlNode × YamlNode) × Bytes)
  | 0, _ => none
  | steps + 1, text =>
    if text.head? = some 125 then some ([], text.drop 1)
    else
      (readNode steps text).bind fun key =>
        (expect [58, 32] key.2).bind fun rest =>
          (readNode steps rest).bind fun value =>
            (expect [44] value.2).bind fun rest =>
              (readEntries steps rest).map fun entries =>
                ((key.1, value.1) :: entries.1, entries.2)

end

/-- Documents in flow style, and texts outside of brackets as plain scalars. -/
def flowStyle : Yaml where
  load text :=
    match text with
    | [] => some .null
    | b :: _ =>
      if b = 91 ∨ b = 123 then
        match readNode text.length text with
        | some (node, []) => some node
        | _ => none
      else some (.scalar text)
  emit node := some (writeNode node)

/-! ### What is read back -/

variable {steps : ℕ}

theorem readQuoted_escape (text rest : Bytes) :
    readQuoted false (escape text ++ 34 :: rest) = some (text, rest) := by
  induction text with
  | nil => rfl
  | cons b text ih =>
    have hcons : escape (b :: text) ++ 34 :: rest =
        (if b = 34 ∨ b = 92 then [92, b] else [b]) ++ (escape text ++ 34 :: rest) := by
      rw [escape, List.flatMap_cons, List.append_assoc]
      rfl
    rw [hcons]
    -- a quote or a backslash is read behind the backslash that was put in front of it
    by_cases hb : b = 34 ∨ b = 92
    · have hne : ¬(92 : UInt8) = 34 := by decide
      rw [if_pos hb, List.cons_append, List.singleton_append, readQuoted, if_neg Bool.false_ne_true,
        if_neg hne, if_pos rfl, readQuoted, if_pos rfl, ih, Option.map_some]
    · obtain ⟨hquote, hbackslash⟩ := not_or.mp hb
      rw [if_neg hb, List.singleton_append, readQuoted, if_neg Bool.false_ne_true, if_neg hquote,
        if_neg hbackslash, ih, Option.map_some]

/-- A node begins with none of the closing brackets. -/
theorem head?_writeNode (node : YamlNode) (rest : Bytes) :
    (writeNode node ++ rest).head? ≠ some 93 ∧ (writeNode node ++ rest).head? ≠ some 125 := by
  cases node <;> simp [writeNode]

theorem expect_append (marks rest : Bytes) : expect marks (marks ++ rest) = some rest := by
  rw [expect, if_pos (List.prefix_append marks rest), List.drop_left]

theorem writeNode_ne_nil (node : YamlNode) : writeNode node ≠ [] := by
  cases node <;> simp [writeNode]

mutual

/-- **A node** in flow style is read back, with a step for every byte. -/
theorem readNode_writeNode (node : YamlNode) (rest : Bytes) {steps : ℕ}
    (hsteps : (writeNode node).length ≤ steps) :
    readNode steps (writeNode node ++ rest) = some (node, rest) := by
  match node, steps with
  | .null, 0 | .scalar _, 0 | .sequence _, 0 | .map _, 0 =>
    exact absurd (List.length_eq_zero_iff.mp (Nat.le_zero.mp hsteps)) (writeNode_ne_nil _)
  | .null, steps + 1 => rw [writeNode, List.singleton_append, readNode, if_pos rfl]
  | .scalar text, steps + 1 =>
    have hquoted := readQuoted_escape text rest
    rw [writeNode, List.cons_append, List.append_assoc, List.singleton_append, readNode,
      if_neg (by decide), if_pos rfl, hquoted, Option.map_some]
  | .sequence items, steps + 1 =>
    rw [writeNode, List.length_cons] at hsteps
    have hitems := readItems_writeItems items rest (Nat.le_of_succ_le_succ hsteps)
    rw [writeNode, List.cons_append, readNode, if_neg (by decide), if_neg (by decide), if_pos rfl,
      hitems, Option.map_some]
  | .map entries, steps + 1 =>
    rw [writeNode, List.length_cons] at hsteps
    have hentries := readEntries_writeEntries entries rest (Nat.le_of_succ_le_succ hsteps)
    rw [writeNode, List.cons_append, readNode, if_neg (by decide), if_neg (by decide),
      if_neg (by decide), if_pos rfl, hentries, Option.map_some]

theorem readItems_writeItems (items : List YamlNode) (rest : Bytes) {steps : ℕ}
    (hsteps : (writeItems items).length ≤ steps) :
    readItems steps (writeItems items ++ rest) = some (items, rest) := by
  match items, steps with
  | [], 0 => exact absurd hsteps (Nat.not_succ_le_zero _)
  | [], steps + 1 => rfl
  | item :: items, 0 =>
    rw [writeItems, List.length_append, List.length_cons] at hsteps
    omega
  | item :: items, steps + 1 =>
    rw [writeItems, List.length_append, List.length_cons] at hsteps
    have hitem := readNode_writeNode item (44 :: (writeItems items ++ rest))
      (show (writeNode item).length ≤ steps by omega)
    have hitems := readItems_writeItems items rest
      (show (writeItems items).length ≤ steps by omega)
    rw [writeItems, List.append_assoc, List.cons_append, readItems,
      if_neg (head?_writeNode item _).1, hitem, Option.bind_some]
    have hcomma := expect_append [44] (writeItems items ++ rest)
    rw [List.singleton_append] at hcomma
    rw [hcomma, Option.bind_some, hitems, Option.map_some]

theorem readEntries_writeEntries (entries : List (YamlNode × YamlNode)) (rest : Bytes) {steps : ℕ}
    (hsteps : (writeEntries entries).length ≤ steps) :
    readEntries steps (writeEntries entries ++ rest) = some (entries, rest) := by
  match entries, steps with
  | [], 0 => exact absurd hsteps (Nat.not_succ_le_zero _)
  | [], steps + 1 => rfl
  | (key, value) :: entries, 0 =>
    rw [writeEntries, List.length_append, List.length_cons] at hsteps
    omega
  | (key, value) :: entries, steps + 1 =>
    rw [writeEntries, List.length_append, List.length_cons, List.length_cons, List.length_append,
      List.length_cons] at hsteps
    have hkey := readNode_writeNode key
      (58 :: 32 :: (writeNode value ++ 44 :: (writeEntries entries ++ rest)))
      (show (writeNode key).length ≤ steps by omega)
    have hvalue := readNode_writeNode value (44 :: (writeEntries entries ++ rest))
      (show (writeNode value).length ≤ steps by omega)
    have hentries := readEntries_writeEntries entries rest
      (show (writeEntries entries).length ≤ steps by omega)
    rw [writeEntries, List.append_assoc, List.cons_append, List.cons_append, List.append_assoc,
      List.cons_append, readEntries, if_neg (head?_writeNode key _).2, hkey, Option.bind_some]
    have hcolon := expect_append [58, 32] (writeNode value ++ 44 :: (writeEntries entries ++ rest))
    have hcomma := expect_append [44] (writeEntries entries ++ rest)
    rw [List.cons_append, List.singleton_append] at hcolon
    rw [List.singleton_append] at hcomma
    rw [hcolon, Option.bind_some, hvalue, Option.bind_some, hcomma, Option.bind_some, hentries,
      Option.map_some]

end

theorem Decimal.not_bracket {text : Bytes} {value : ℤ} (h : Decimal text value) :
    ∃ b tail, text = b :: tail ∧ ¬(b = 91 ∨ b = 123) := by
  cases h with
  | plain hdigits =>
    obtain ⟨b, tail, rfl⟩ := List.exists_cons_of_ne_nil hdigits.1
    refine ⟨b, tail, rfl, ?_⟩
    have hdigit := hdigits.2 b List.mem_cons_self
    rintro (rfl | rfl) <;> exact Bool.false_ne_true hdigit
  | @plus digits _ => exact ⟨43, digits, rfl, by decide⟩
  | @minus digits _ => exact ⟨45, digits, rfl, by decide⟩

/-- **Flow style** has the documented behaviour. -/
theorem documented_flowStyle : flowStyle.Documented where
  load_emit node hcontainer := by
    have hread := readNode_writeNode node [] (Nat.le_refl _)
    rw [List.append_nil] at hread
    refine ⟨writeNode node, rfl, ?_⟩
    cases node with
    | null => exact hcontainer.elim
    | scalar text => exact hcontainer.elim
    | sequence items =>
      rw [flowStyle]
      dsimp only
      rw [writeNode] at hread ⊢
      dsimp only
      rw [if_pos (by decide), hread]
    | map entries =>
      rw [flowStyle]
      dsimp only
      rw [writeNode] at hread ⊢
      dsimp only
      rw [if_pos (by decide), hread]
  load_word text hword := by
    have hfirst : ∃ b tail, text = b :: tail ∧ ¬(b = 91 ∨ b = 123) := by
      rcases hword with rfl | rfl | ⟨value, hdecimal⟩
      · exact ⟨116, ascii "rue", rfl, by decide⟩
      · exact ⟨102, ascii "alse", rfl, by decide⟩
      · exact hdecimal.not_bracket
    obtain ⟨b, tail, rfl, hb⟩ := hfirst
    exact if_neg hb
  load_empty := rfl

end Config

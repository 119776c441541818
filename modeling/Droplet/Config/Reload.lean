/-
Loading the configuration from a directory.

`LoadFromConfDir` lists the `.yml` files and then the `.yaml` files below the directory, each
group in the order of the paths, and applies them one after the other.  Without `force` it
passes over a file whose write time is the one at which the file was loaded last.

* `loadFromYaml_eq` — applying a file is a row of writes to the variables, of which the last
  to each variable counts;
* `Loader.Sound` — a file that is passed over says what it said when it was loaded, and a
  variable has the value that the file applied last gives it;
* `Loader.reload_of_applied` — a full reload leaves a variable as it is if the file applied
  to it last is the last in the list that sets it;
* `Loader.not_reload` — an edit of an earlier file puts its value in the place of the value
  of a later one.
-/
import Droplet.Http.Text
import Droplet.Lib.Transition
import Droplet.Lib.Writes
import Droplet.Config.Listeners
import Mathlib.Data.List.Sort

open Transition Transition.System Http

namespace Config

/-! ### YAML documents -/

inductive YamlNode
  | null
  | scalar (text : Bytes)
  | sequence (items : List YamlNode)
  | map (entries : List (YamlNode × YamlNode))

def YamlNode.isNull : YamlNode → Bool
  | .null => true
  | _ => false

def normalizeConfigName (name : Bytes) : Bytes :=
  name.map fun ch => if 65 ≤ ch ∧ ch ≤ 90 then ch - 65 + 97 else ch

def configNameCharset : Bytes := ascii "abcdefghijklmnopqrstuvwxyz._0123456789"

def isValidConfigName (name : Bytes) : Bool :=
  !name.isEmpty && name.all configNameCharset.contains

/-- The name of a member of the map with this name. -/
def memberName (parent key : Bytes) : Bytes :=
  if parent.isEmpty then key else parent ++ 46 :: key

mutual

def collectMembers (name : Bytes) : YamlNode → List (Bytes × YamlNode)
  | .map entries =>
    (if name.isEmpty then [] else [(name, .map entries)]) ++ collectEntries name entries
  | node => if name.isEmpty then [] else [(name, node)]

/-- Keys that are no scalars or no names are reported and skipped. -/
def collectEntries (name : Bytes) : List (YamlNode × YamlNode) → List (Bytes × YamlNode)
  | [] => []
  | (.scalar text, value) :: entries =>
    if isValidConfigName (normalizeConfigName text) then
      collectMembers (memberName name (normalizeConfigName text)) value ++
        collectEntries name entries
    else collectEntries name entries
  | _ :: entries => collectEntries name entries

end

/-! ### Registered variables -/

variable {V : Type}

/-- What a registered variable does with a node, for the values of all types together.
`==` on values is equality. -/
structure Kind (V : Type) where
  convert : YamlNode → Option V
  same : Option (V → V → Bool)
  eq_of_same : ∀ eq ∈ same, ∀ a b, eq a b = true → a = b

/-- `ConfigVar::setValue`, for the value alone. -/
def Kind.setValue (kind : Kind V) (old new : V) : V :=
  if unchanged kind.same old new then old else new

/-- A node that can not be converted is reported. -/
def Kind.fromNode (kind : Kind V) (old : V) (node : YamlNode) : V :=
  match kind.convert node with
  | some value => kind.setValue old value
  | none => old

def loadFromYaml (kinds : Bytes → Option (Kind V)) (root : YamlNode) (values : Bytes → V) :
    Bytes → V :=
  if root.isNull then values
  else (collectMembers [] root).foldl (fun values member => match kinds member.1 with
    | some kind => Function.update values member.1 (kind.fromNode (values member.1) member.2)
    | none => values) values

/-! ### Files -/

/-- A regular file below the directory; `root` is `none` where it can not be parsed. -/
structure File where
  path : Bytes
  writeTime : ℕ
  root : Option YamlNode

/-- The regular files below a directory. -/
structure Directory where
  files : List File
  distinct : (files.map File.path).Nodup

/-- `std::string::operator<=`. -/
def pathLe : Bytes → Bytes → Bool
  | [], _ => true
  | _ :: _, [] => false
  | a :: as, b :: bs => a < b || (a == b && pathLe as bs)

def listAllFile (directory : Directory) (suffix : Bytes) : List File :=
  (directory.files.filter fun file => suffix.isSuffixOf file.path).insertionSort
    fun a b => pathLe a.path b.path = true

/-- The files in the order in which they are applied. -/
def listing (directory : Directory) : List File :=
  listAllFile directory (ascii ".yml") ++ listAllFile directory (ascii ".yaml")

/-- A file is written. -/
def Directory.edit (directory : Directory) (path : Bytes) (writeTime : ℕ)
    (root : Option YamlNode) : Directory where
  files := directory.files.map fun file => if file.path = path then ⟨path, writeTime, root⟩ else file
  distinct := by
    have hpaths : ∀ file : File, (if file.path = path then ⟨path, writeTime, root⟩ else file : File).path =
        file.path := by
      intro file
      split_ifs with hpath
      · exact hpath.symm
      · rfl
    rw [List.map_map]
    simp only [Function.comp_def, hpaths]
    exact directory.distinct

/-- The variables and the loaded files.  `loaded` has the write time and the document of each
file as it was loaded last.  The documents, `past` and `applied` are records of the run: the
write times that a file has had, and the file that was applied to a variable last. -/
structure Loader (V : Type) where
  directory : Directory
  values : Bytes → V
  loaded : Bytes → Option (ℕ × YamlNode)
  past : Bytes → List ℕ
  applied : Bytes → Option Bytes

/-- The writes that applying a document makes. -/
def writesOf (kinds : Bytes → Option (Kind V)) (root : YamlNode) : List (Bytes × V) :=
  if root.isNull then []
  else (collectMembers [] root).filterMap fun member =>
    (kinds member.1).bind fun kind => (kind.convert member.2).map fun value => (member.1, value)

namespace Loader

variable (kinds : Bytes → Option (Kind V))

def isFileUnchanged (s : Loader V) (path : Bytes) (writeTime : ℕ) : Bool :=
  (s.loaded path).map Prod.fst == some writeTime

/-- A parsed file is applied, and its write time noted. -/
def applyFile (s : Loader V) (file : File) (root : YamlNode) : Loader V :=
  { s with
    values := loadFromYaml kinds root s.values
    loaded := Function.update s.loaded file.path (some (file.writeTime, root))
    applied := fun name =>
      if (Writes.last name (writesOf kinds root)).isSome then some file.path else s.applied name }

def loadFile (force : Bool) (s : Loader V) (file : File) : Loader V :=
  if !force && s.isFileUnchanged file.path file.writeTime then s
  else match file.root with
    | some root => s.applyFile kinds file root
    | none => s

def loadFromConfDir (force : Bool) (s : Loader V) : Loader V :=
  (listing s.directory).foldl (loadFile kinds force) s

/-- The directory is edited or loaded.  An edit changes the write time of the file. -/
inductive Event
  | edit (path : Bytes) (writeTime : ℕ) (root : Option YamlNode)
  | load (force : Bool)

def edit (s : Loader V) (path : Bytes) (writeTime : ℕ) (root : Option YamlNode) : Loader V :=
  { s with
    directory := s.directory.edit path writeTime root
    past := Function.update s.past path (s.past path ++ [writeTime]) }

def step (s : Loader V) : Event → Option (Loader V)
  | .edit path writeTime root =>
    if s.directory.files.any fun file => file.path == path && file.writeTime != writeTime then
      some (s.edit path writeTime root)
    else none
  | .load force => some (s.loadFromConfDir kinds force)

/-- A process that has not loaded anything. -/
def start (directory : Directory) (values : Bytes → V) : Loader V where
  directory := directory
  values := values
  loaded := fun _ => none
  past := fun path => (directory.files.filter fun file => file.path == path).map File.writeTime
  applied := fun _ => none

def system (directory : Directory) (values : Bytes → V) : System (Loader V) Event where
  init s := s = start directory values
  step := step kinds

/-- An edit gives the file a write time that it has not had. -/
def Fresh (s : Loader V) : Event → Prop
  | .edit path writeTime _ => writeTime ∉ s.past path
  | .load _ => True

end Loader

/-- Whether a file sets a variable. -/
def File.sets (kinds : Bytes → Option (Kind V)) (name : Bytes) (file : File) : Bool :=
  file.root.any fun root => (Writes.last name (writesOf kinds root)).isSome

/-- The last file in the list that sets a variable. -/
def Directory.lastSetter (kinds : Bytes → Option (Kind V)) (directory : Directory) (name : Bytes) :
    Option File :=
  ((listing directory).filter (File.sets kinds name)).getLast?

instance Loader.Fresh.decidable (s : Loader V) : (e : Loader.Event) → Decidable (s.Fresh e)
  | .edit path writeTime _ => inferInstanceAs (Decidable (writeTime ∉ s.past path))
  | .load _ => .isTrue trivial

/-- A file can be parsed, and what it says of a variable can be converted. -/
def File.convertible (kinds : Bytes → Option (Kind V)) (file : File) : Bool :=
  file.root.any fun root => (collectMembers [] root).all fun member =>
    (kinds member.1).all fun kind => (kind.convert member.2).isSome

def Loader.Event.convertible (kinds : Bytes → Option (Kind V)) : Loader.Event → Bool
  | .edit path writeTime root => (File.mk path writeTime root).convertible kinds
  | .load _ => true

/-- A listed file sets only the variables that it owns. -/
def File.OwnedBy (kinds : Bytes → Option (Kind V)) (owner : Bytes → Bytes) (file : File) : Prop :=
  ascii ".yml" <:+ file.path ∨ ascii ".yaml" <:+ file.path →
    ∀ name, file.sets kinds name = true → file.path = owner name

/-- So does what an edit makes of it. -/
def Loader.Event.OwnedBy (kinds : Bytes → Option (Kind V)) (owner : Bytes → Bytes) :
    Loader.Event → Prop
  | .edit path writeTime root => (File.mk path writeTime root).OwnedBy kinds owner
  | .load _ => True

/-! ### What a file writes -/

variable {kinds : Bytes → Option (Kind V)} {name path : Bytes} {file : File} {s : Loader V}
  {force : Bool}

/-- A value that is equal to the new one is the new one. -/
theorem Kind.setValue_eq (kind : Kind V) (old new : V) : kind.setValue old new = new := by
  rw [Kind.setValue, unchanged]
  split_ifs with h
  · cases hsame : kind.same with
    | none =>
      rw [hsame] at h
      exact absurd h (by simp)
    | some eq =>
      rw [hsame] at h
      exact kind.eq_of_same eq hsame old new h
  · rfl

/-- **Applying a document** is a row of writes. -/
theorem loadFromYaml_eq (root : YamlNode) (values : Bytes → V) :
    loadFromYaml kinds root values = Writes.apply (writesOf kinds root) values := by
  rw [loadFromYaml, writesOf]
  split_ifs with hnull
  · rfl
  · generalize collectMembers [] root = members
    induction members generalizing values with
    | nil => rfl
    | cons member members ih =>
      rw [List.foldl_cons, ih, List.filterMap_cons]
      cases hkind : kinds member.1 with
      | none => rfl
      | some kind =>
        simp only [Option.bind_some, Kind.fromNode]
        cases kind.convert member.2 with
        | none =>
          rw [Function.update_eq_self]
          rfl
        | some value =>
          simp only [Kind.setValue_eq]
          rfl

/-- The writes of a file, if it can be parsed. -/
def File.writes (kinds : Bytes → Option (Kind V)) (file : File) : List (Bytes × V) :=
  (file.root.map (writesOf kinds)).getD []

theorem File.sets_eq (name : Bytes) (file : File) :
    file.sets kinds name = (Writes.last name (file.writes kinds)).isSome := by
  rw [File.sets, File.writes]
  cases file.root <;> rfl

namespace Loader

theorem loadFile_true_values (s : Loader V) (file : File) :
    (s.loadFile kinds true file).values = Writes.apply (file.writes kinds) s.values := by
  rw [loadFile, File.writes]
  simp only [Bool.not_true, Bool.false_and, Bool.false_eq_true, if_false]
  cases file.root with
  | some root => exact loadFromYaml_eq root s.values
  | none => rfl

/-- A full reload applies every file. -/
theorem foldl_loadFile_true_values (files : List File) (s : Loader V) :
    (files.foldl (loadFile kinds true) s).values =
      Writes.apply (files.flatMap fun file => file.writes kinds) s.values := by
  induction files generalizing s with
  | nil => rfl
  | cons file files ih =>
    rw [List.foldl_cons, ih, loadFile_true_values, List.flatMap_cons, Writes.apply_append]

/-- What a full reload does to a variable. -/
theorem reload_eq_self_iff (s : Loader V) (name : Bytes) :
    (s.loadFromConfDir kinds true).values name = s.values name ↔
      ∀ file ∈ s.directory.lastSetter kinds name,
        ∀ v ∈ Writes.last name (file.writes kinds), v = s.values name := by
  rw [loadFromConfDir, foldl_loadFile_true_values, Writes.apply_eq_self_iff, Directory.lastSetter]
  have hsets : File.sets kinds name = fun file => (Writes.last name (file.writes kinds)).isSome :=
    funext fun file => File.sets_eq name file
  rw [hsets]
  cases hlast : ((listing s.directory).filter fun file =>
      (Writes.last name (file.writes kinds)).isSome).getLast? with
  | some file =>
    rw [Writes.last_flatMap hlast]
    simp
  | none =>
    have hnone : ∀ file ∈ listing s.directory, Writes.last name (file.writes kinds) = none := by
      intro file hfile
      have hfilter := List.filter_eq_nil_iff.mp (List.getLast?_eq_none_iff.mp hlast) file hfile
      rwa [Option.not_isSome_iff_eq_none] at hfilter
    rw [Writes.last_flatMap_eq_none hnone]
    simp

/-! ### What a run keeps -/

/-- A file whose write time is the one at which it was loaded says what it said then, and a
variable has the value that the file applied last gave it. -/
structure Sound (kinds : Bytes → Option (Kind V)) (s : Loader V) : Prop where
  past : ∀ file ∈ s.directory.files, file.writeTime ∈ s.past file.path
  loadedPast : ∀ path writeTime root, s.loaded path = some (writeTime, root) →
    writeTime ∈ s.past path
  loaded : ∀ file ∈ s.directory.files, ∀ root,
    s.loaded file.path = some (file.writeTime, root) → file.root = some root
  applied : ∀ name path writeTime root v, s.applied name = some path →
    s.loaded path = some (writeTime, root) → Writes.last name (writesOf kinds root) = some v →
    s.values name = v

theorem sound_start (directory : Directory) (values : Bytes → V) :
    Sound kinds (start directory values) where
  past := by
    intro file hfile
    exact List.mem_map_of_mem (List.mem_filter.mpr ⟨hfile, beq_self_eq_true file.path⟩)
  loadedPast := fun _ _ _ h => absurd h (by simp [start])
  loaded := fun _ _ _ h => absurd h (by simp [start])
  applied := fun _ _ _ _ _ h => absurd h (by simp [start])

/-- The files of a directory are told apart by their paths. -/
theorem eq_of_path_eq {directory : Directory} {file' : File} (hfile : file ∈ directory.files)
    (hfile' : file' ∈ directory.files) (hpath : file.path = file'.path) : file = file' :=
  List.inj_on_of_nodup_map directory.distinct hfile hfile' hpath

/-- The files after an edit. -/
theorem mem_edit {directory : Directory} {writeTime : ℕ} {root : Option YamlNode}
    (h : file ∈ (directory.edit path writeTime root).files) :
    file = ⟨path, writeTime, root⟩ ∨ file ∈ directory.files ∧ file.path ≠ path := by
  obtain ⟨old, hold, hedit⟩ := List.mem_map.mp h
  split_ifs at hedit with hpath
  · exact .inl hedit.symm
  · exact .inr (hedit ▸ ⟨hold, hpath⟩)

theorem edit_past (s : Loader V) (path : Bytes) (writeTime : ℕ) (root : Option YamlNode)
    (p : Bytes) : (s.edit path writeTime root).past p =
      if p = path then s.past path ++ [writeTime] else s.past p :=
  Function.update_apply s.past path _ p

theorem applyFile_loaded (s : Loader V) (file : File) (root : YamlNode) (p : Bytes) :
    (s.applyFile kinds file root).loaded p =
      if p = file.path then some (file.writeTime, root) else s.loaded p :=
  Function.update_apply s.loaded file.path _ p

theorem applyFile_values (s : Loader V) (file : File) (root : YamlNode) (name : Bytes) :
    (s.applyFile kinds file root).values name =
      (Writes.last name (writesOf kinds root)).getD (s.values name) := by
  have hvalues : (s.applyFile kinds file root).values = loadFromYaml kinds root s.values := rfl
  rw [hvalues, loadFromYaml_eq, Writes.apply_eq]

theorem applyFile_applied (s : Loader V) (file : File) (root : YamlNode) (name : Bytes) :
    (s.applyFile kinds file root).applied name =
      if (Writes.last name (writesOf kinds root)).isSome then some file.path else s.applied name :=
  rfl

theorem Sound.edit (h : Sound kinds s) {writeTime : ℕ} {root : Option YamlNode}
    (hfresh : writeTime ∉ s.past path) : Sound kinds (s.edit path writeTime root) where
  past := by
    intro file hfile
    rw [edit_past]
    rcases mem_edit hfile with rfl | ⟨hold, hpath⟩
    · rw [if_pos rfl]
      exact List.mem_append_right _ (List.mem_singleton_self writeTime)
    · rw [if_neg hpath]
      exact h.past file hold
  loadedPast := by
    intro p time doc hloaded
    have hpast := h.loadedPast p time doc hloaded
    rw [edit_past]
    split_ifs with hp
    · exact List.mem_append_left _ (hp ▸ hpast)
    · exact hpast
  loaded := by
    intro file hfile doc hloaded
    rcases mem_edit hfile with rfl | ⟨hold, -⟩
    · -- the file was never loaded with this write time
      exact absurd (h.loadedPast _ _ _ hloaded) hfresh
    · exact h.loaded file hold doc hloaded
  applied := h.applied

theorem Sound.applyFile (h : Sound kinds s) (hfile : file ∈ s.directory.files) {root : YamlNode}
    (hroot : file.root = some root) : Sound kinds (s.applyFile kinds file root) where
  past := h.past
  loadedPast := by
    intro p time doc hloaded
    rw [applyFile_loaded] at hloaded
    split_ifs at hloaded with hp
    · obtain ⟨rfl, -⟩ := Prod.mk.inj (Option.some_inj.mp hloaded)
      exact hp ▸ h.past file hfile
    · exact h.loadedPast p time doc hloaded
  loaded := by
    intro other hother doc hloaded
    rw [applyFile_loaded] at hloaded
    split_ifs at hloaded with hp
    · obtain rfl := eq_of_path_eq hother hfile hp
      obtain ⟨-, rfl⟩ := Prod.mk.inj (Option.some_inj.mp hloaded)
      exact hroot
    · exact h.loaded other hother doc hloaded
  applied := by
    intro name p time doc v happlied hloaded hlast
    rw [applyFile_applied] at happlied
    rw [applyFile_loaded] at hloaded
    rw [applyFile_values]
    split_ifs at happlied with hsets
    · -- this file has set the variable
      obtain rfl := Option.some_inj.mp happlied
      rw [if_pos rfl, Option.some_inj] at hloaded
      obtain ⟨-, rfl⟩ := Prod.mk.inj hloaded
      rw [hlast]
      rfl
    · rw [Option.not_isSome_iff_eq_none.mp hsets]
      split_ifs at hloaded with hp
      · obtain ⟨-, rfl⟩ := Prod.mk.inj (Option.some_inj.mp hloaded)
        rw [hlast] at hsets
        exact absurd rfl hsets
      · exact h.applied name p time doc v happlied hloaded hlast

theorem mem_listing {directory : Directory} : file ∈ listing directory ↔
    file ∈ directory.files ∧ (ascii ".yml" <:+ file.path ∨ ascii ".yaml" <:+ file.path) := by
  rw [listing, listAllFile, listAllFile, List.mem_append, List.mem_insertionSort,
    List.mem_insertionSort, List.mem_filter, List.mem_filter, List.isSuffixOf_iff_suffix,
    List.isSuffixOf_iff_suffix]
  exact and_or_left.symm

/-- What holds of the files that a load goes through. -/
theorem foldl_loadFile {I : Loader V → Prop} (happly : ∀ (s : Loader V) (file : File)
      (root : YamlNode), I s → file ∈ listing s.directory → file.root = some root →
      I (s.applyFile kinds file root)) {files : List File} (h : I s)
    (hfiles : ∀ file ∈ files, file ∈ listing s.directory) :
    I (files.foldl (loadFile kinds force) s) ∧
      (files.foldl (loadFile kinds force) s).directory = s.directory := by
  induction files generalizing s with
  | nil => exact ⟨h, rfl⟩
  | cons file files ih =>
    have hfirst : I (s.loadFile kinds force file) ∧
        (s.loadFile kinds force file).directory = s.directory := by
      rw [loadFile]
      split_ifs
      · exact ⟨h, rfl⟩
      · split
        next root hroot => exact ⟨happly s file root h (hfiles file List.mem_cons_self) hroot, rfl⟩
        next => exact ⟨h, rfl⟩
    have hrest := ih hfirst.1 fun other hother => by
      rw [hfirst.2]
      exact hfiles other (List.mem_cons_of_mem file hother)
    exact ⟨hrest.1, hrest.2.trans hfirst.2⟩

theorem Sound.foldl_loadFile (h : Sound kinds s) (force : Bool) {files : List File}
    (hfiles : ∀ file ∈ files, file ∈ listing s.directory) :
    Sound kinds (files.foldl (Loader.loadFile kinds force) s) ∧
      (files.foldl (Loader.loadFile kinds force) s).directory = s.directory :=
  Loader.foldl_loadFile
    (fun _ _ _ hs hfile hroot => hs.applyFile (mem_listing.mp hfile).1 hroot) h hfiles

/-- A file that has been gone through is loaded as it is. -/
theorem Sound.loaded_loadFile (h : Sound kinds s) (force : Bool) (hfile : file ∈ s.directory.files)
    {root : YamlNode} (hroot : file.root = some root) :
    (s.loadFile kinds force file).loaded file.path = some (file.writeTime, root) := by
  rw [Loader.loadFile]
  split_ifs with hskip
  · obtain ⟨-, hunchanged⟩ := Bool.and_eq_true_iff.mp hskip
    rw [isFileUnchanged, beq_iff_eq, Option.map_eq_some_iff] at hunchanged
    obtain ⟨⟨time, doc⟩, hloaded, rfl⟩ := hunchanged
    -- it says what it said when it was loaded
    have hdoc := h.loaded file hfile doc hloaded
    rw [hroot, Option.some_inj] at hdoc
    rw [hdoc]
    exact hloaded
  · rw [hroot]
    exact (applyFile_loaded s file root file.path).trans (if_pos rfl)

/-- After a load, every file that can be parsed is loaded as it is. -/
theorem Sound.loaded_loadFromConfDir (h : Sound kinds s) (force : Bool) (hfile : file ∈ listing s.directory)
    {root : YamlNode} (hroot : file.root = some root) :
    (s.loadFromConfDir kinds force).loaded file.path = some (file.writeTime, root) := by
  obtain ⟨before, after, hsplit⟩ := List.append_of_mem hfile
  have hmem : ∀ other ∈ before ++ file :: after, other ∈ listing s.directory := by
    intro other hother
    rw [hsplit]
    exact hother
  obtain ⟨hsound, hdirectory⟩ := h.foldl_loadFile force fun other hother =>
    hmem other (List.mem_append_left _ hother)
  rw [loadFromConfDir, hsplit, List.foldl_append, List.foldl_cons]
  generalize before.foldl (Loader.loadFile kinds force) s = t at hsound hdirectory
  have hlisted : file ∈ listing t.directory := hdirectory ▸ hfile
  have hnow : (t.loadFile kinds force file).loaded file.path = some (file.writeTime, root) ∧
      (t.loadFile kinds force file).directory = s.directory := by
    refine ⟨hsound.loaded_loadFile force (mem_listing.mp hlisted).1 hroot, ?_⟩
    have hone := hsound.foldl_loadFile force (List.forall_mem_singleton.mpr hlisted)
    exact hone.2.trans hdirectory
  refine (Loader.foldl_loadFile (I := fun u => u.loaded file.path = some (file.writeTime, root) ∧
    u.directory = s.directory) ?_ hnow fun other hother => ?_).1.1
  · rintro u other doc ⟨hloaded, hu⟩ hother hdoc
    refine ⟨?_, hu⟩
    rw [hu] at hother
    rw [applyFile_loaded]
    split_ifs with hpath
    · obtain rfl := eq_of_path_eq (mem_listing.mp hfile).1 (mem_listing.mp hother).1 hpath
      rw [hroot, Option.some_inj] at hdoc
      rw [hdoc]
    · exact hloaded
  · rw [hnow.2]
    exact hmem other (List.mem_append_right _ (List.mem_cons_of_mem file hother))

theorem Sound.loadFromConfDir (h : Sound kinds s) (force : Bool) :
    Sound kinds (s.loadFromConfDir kinds force) ∧
      (s.loadFromConfDir kinds force).directory = s.directory :=
  h.foldl_loadFile force fun _ hfile => hfile

theorem Sound.step {e : Event} {s' : Loader V} (h : Sound kinds s) (hfresh : Fresh s e)
    (hstep : step kinds s e = some s') : Sound kinds s' := by
  cases e with
  | edit path writeTime root =>
    rw [Loader.step] at hstep
    split_ifs at hstep
    obtain rfl := Option.some_inj.mp hstep
    exact h.edit hfresh
  | load force =>
    obtain rfl := Option.some_inj.mp hstep
    exact (h.loadFromConfDir force).1

theorem sound {directory : Directory} {values : Bytes → V}
    (h : (system kinds directory values).ReachableWhile Fresh s) : Sound kinds s := by
  refine h.invariant (fun s hs => ?_) fun s e s' hs hfresh hstep => hs.step hfresh hstep
  obtain rfl : s = start directory values := hs
  exact sound_start directory values

/-- A full reload after a load, for a variable of which the file applied last is the last
that sets it. -/
theorem Sound.reload (h : Sound kinds s) (force : Bool) (name : Bytes)
    (happlied : ∀ file ∈ s.directory.lastSetter kinds name,
      (s.loadFromConfDir kinds force).applied name = some file.path) :
    ((s.loadFromConfDir kinds force).loadFromConfDir kinds true).values name =
      (s.loadFromConfDir kinds force).values name := by
  obtain ⟨hsound, hdirectory⟩ := h.loadFromConfDir force
  rw [reload_eq_self_iff, hdirectory]
  intro file hfile v hv
  have hlisted : file ∈ listing s.directory :=
    (List.mem_filter.mp (List.mem_of_getLast? hfile)).1
  cases hroot : file.root with
  | none =>
    rw [File.writes, hroot] at hv
    exact absurd hv (by simp [Writes.last])
  | some root =>
    rw [File.writes, hroot] at hv
    have hloaded := h.loaded_loadFromConfDir force hlisted hroot
    exact (hsound.applied name file.path _ root v (happlied file hfile) hloaded hv).symm

/-! ### Each variable in one file -/

/-- Every variable is set by the file that owns it, and a loaded file is the one applied last to
the variables that it sets. -/
structure Owned (kinds : Bytes → Option (Kind V)) (owner : Bytes → Bytes) (s : Loader V) :
    Prop where
  files : ∀ file ∈ s.directory.files, file.OwnedBy kinds owner
  loaded : ∀ path writeTime root name, s.loaded path = some (writeTime, root) →
    (Writes.last name (writesOf kinds root)).isSome = true →
    path = owner name ∧ s.applied name = some path

variable {owner : Bytes → Bytes}

theorem Owned.applyFile (h : Owned kinds owner s) (hfile : file ∈ listing s.directory)
    {root : YamlNode} (hroot : file.root = some root) :
    Owned kinds owner (s.applyFile kinds file root) where
  files := h.files
  loaded := by
    intro p time doc name hloaded hsets
    have howns : ∀ n, (Writes.last n (writesOf kinds root)).isSome = true → file.path = owner n := by
      intro n hn
      refine h.files file (mem_listing.mp hfile).1 (mem_listing.mp hfile).2 n ?_
      rw [File.sets, hroot]
      exact hn
    rw [applyFile_loaded] at hloaded
    rw [applyFile_applied]
    split_ifs at hloaded with hp
    · obtain ⟨-, rfl⟩ := Prod.mk.inj (Option.some_inj.mp hloaded)
      rw [if_pos hsets, hp]
      exact ⟨howns name hsets, rfl⟩
    · obtain ⟨howner, happlied⟩ := h.loaded p time doc name hloaded hsets
      refine ⟨howner, ?_⟩
      split_ifs with hn
      · -- one file owns the variable
        rw [howns name hn, howner]
      · exact happlied

theorem Owned.step {e : Event} {s' : Loader V} (h : Owned kinds owner s)
    (howned : e.OwnedBy kinds owner) (hstep : step kinds s e = some s') :
    Owned kinds owner s' := by
  cases e with
  | edit path writeTime root =>
    rw [Loader.step] at hstep
    split_ifs at hstep
    obtain rfl := Option.some_inj.mp hstep
    refine ⟨fun file hfile => ?_, h.loaded⟩
    rcases mem_edit hfile with rfl | ⟨hold, -⟩
    · exact howned
    · exact h.files file hold
  | load force =>
    obtain rfl := Option.some_inj.mp hstep
    exact (Loader.foldl_loadFile (fun _ _ _ hs hfile hroot => hs.applyFile hfile hroot) h
      fun _ hfile => hfile).1

theorem owned {directory : Directory} {values : Bytes → V}
    (hfiles : ∀ file ∈ directory.files, file.OwnedBy kinds owner)
    (h : (system kinds directory values).ReachableWhile
      (fun s e => Fresh s e ∧ e.OwnedBy kinds owner) s) : Owned kinds owner s := by
  refine h.invariant (fun s hs => ?_) fun s e s' hs hcond hstep => hs.step hcond.2 hstep
  obtain rfl : s = start directory values := hs
  exact ⟨hfiles, fun _ _ _ _ hloaded => absurd hloaded (by simp [start])⟩

/-- **A full reload after a load.**  It leaves a variable as it is if the file that was applied
to it last is the last in the list of those that set it, or if no file does.  If no two files
ever set the same variable, it leaves all variables as they are. -/
theorem reload_of_applied (kinds : Bytes → Option (Kind V)) (directory : Directory)
    (values : Bytes → V) :
    (∀ s : Loader V, (system kinds directory values).ReachableWhile Fresh s →
      ∀ name : Bytes, (∀ file ∈ s.directory.lastSetter kinds name,
        (s.loadFromConfDir kinds false).applied name = some file.path) →
      ((s.loadFromConfDir kinds false).loadFromConfDir kinds true).values name =
        (s.loadFromConfDir kinds false).values name) ∧
    ∀ owner : Bytes → Bytes, (∀ file ∈ directory.files, file.OwnedBy kinds owner) →
      ∀ s : Loader V, (system kinds directory values).ReachableWhile
        (fun s e => Fresh s e ∧ e.OwnedBy kinds owner) s →
      ∀ name : Bytes, ((s.loadFromConfDir kinds false).loadFromConfDir kinds true).values name =
        (s.loadFromConfDir kinds false).values name := by
  refine ⟨fun s h name happlied => (sound h).reload false name happlied, ?_⟩
  intro owner hfiles s h name
  have hsound := sound (h.mono fun _ _ hcond => hcond.1)
  refine hsound.reload false name fun file hfile => ?_
  obtain ⟨hlisted, hsets⟩ := List.mem_filter.mp (List.mem_of_getLast? hfile)
  have howned : Owned kinds owner (s.loadFromConfDir kinds false) :=
    (owned hfiles h).step (e := .load false) trivial rfl
  cases hroot : file.root with
  | none =>
    rw [File.sets, hroot] at hsets
    exact absurd hsets (by simp)
  | some root =>
    rw [File.sets, hroot] at hsets
    exact (howned.loaded _ _ root name (hsound.loaded_loadFromConfDir false hlisted hroot) hsets).2

/-- A variable of type `std::string`. -/
def textKind : Kind Bytes where
  convert
    | .scalar text => some text
    | _ => none
  same := some (· == ·)
  eq_of_same := by
    rintro eq heq a b hab
    obtain rfl := Option.some_inj.mp heq
    exact beq_iff_eq.mp hab

/-- The variables `k` and `l`. -/
def textKinds : Bytes → Option (Kind Bytes) := fun name =>
  if name = ascii "k" ∨ name = ascii "l" then some textKind else none

/-- A document that sets a variable. -/
def textDocument (name text : String) : YamlNode :=
  .map [(.scalar (ascii name), .scalar (ascii text))]

/-- Two files that set `k` and `l`. -/
def ownFiles : Directory where
  files := [⟨ascii "/a.yml", 1, some (textDocument "k" "1")⟩,
    ⟨ascii "/b.yml", 1, some (textDocument "l" "2")⟩]
  distinct := by decide

/-- `k` is set by one of the files only. -/
theorem reload_ownFiles : ∃ s : Loader Bytes,
    (system textKinds ownFiles fun _ => []).exec (start ownFiles fun _ => [])
        [.load false, .edit (ascii "/a.yml") 2 (some (textDocument "k" "3"))] = some s ∧
      ((s.loadFromConfDir textKinds false).loadFromConfDir textKinds true).values (ascii "k") =
        ascii "3" := by
  have hmeets : (system textKinds ownFiles fun _ => []).Meets Fresh (start ownFiles fun _ => [])
      [.load false, .edit (ascii "/a.yml") 2 (some (textDocument "k" "3"))] := by
    decide +kernel
  refine ⟨_, rfl, ?_⟩
  refine ((reload_of_applied textKinds ownFiles fun _ => []).1 _
    (ReachableWhile.exec (.init rfl) hmeets rfl) (ascii "k") (by decide +kernel)).trans ?_
  decide +kernel

/-- Two files that set `k`. -/
def sharedFiles : Directory where
  files := [⟨ascii "/a.yml", 1, some (textDocument "k" "1")⟩,
    ⟨ascii "/b.yml", 1, some (textDocument "k" "2")⟩]
  distinct := by decide

/-- An edit of the first of two files that set `k` puts its value in the place of that of the
second. -/
theorem not_reload : ¬ ∀ (kinds : Bytes → Option (Kind Bytes)) (directory : Directory)
    (values : Bytes → Bytes), (∀ file ∈ directory.files, file.convertible kinds = true) →
      ∀ s : Loader Bytes, (system kinds directory values).ReachableWhile
        (fun s e => Fresh s e ∧ e.convertible kinds = true) s →
      ∀ name : Bytes, ((s.loadFromConfDir kinds false).loadFromConfDir kinds true).values name =
        (s.loadFromConfDir kinds false).values name := by
  intro h
  have hmeets : (system textKinds sharedFiles fun _ => []).Meets
      (fun s e => Fresh s e ∧ e.convertible textKinds = true) (start sharedFiles fun _ => [])
      [.load false, .edit (ascii "/a.yml") 2 (some (textDocument "k" "3"))] := by
    decide +kernel
  have hsame := h textKinds sharedFiles (fun _ => []) (by decide +kernel) _
    (ReachableWhile.exec (.init rfl) hmeets rfl) (ascii "k")
  revert hsame
  decide +kernel

end Loader

end Config

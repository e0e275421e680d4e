import Criteria.Settings.Basic
import Criteria.Yaml.Reader
import Criteria.Yaml.Scalar

/-!
# Reading settings

Settings are written in YAML. What is missing has its default, and further fields
are passed over, but no field that counts may occur twice. The kind of a storage is
only known when all its fields have been read: they all have to hold values.

* `Settings.read`: reads the text of settings.
-/

namespace Criteria

namespace Settings

/-! ## Fields -/

/-- The value of a field with a name, if there is one; fails if it occurs twice. -/
def field? (fields : List (String × Yaml.Node)) (name : String) :
    Option (Option Yaml.Node) :=
  match fields.filter (·.1 == name) with
  | [] => some none
  | [(_, node)] => some (some node)
  | _ => none

/-- What a field stands for, or the default if it is missing. -/
def orDefault {α : Type} (default : α) (read? : Yaml.Node → Option α) :
    Option Yaml.Node → Option α
  | none => some default
  | some node => read? node

/-- The fields of a mapping, whose keys have to be scalars. Where a scalar is left out,
    there are none. -/
def fieldsOf? : Yaml.Node → Option (List (String × Yaml.Node))
  | .mapping _ fields => fields.mapM fun (key, value) => key.scalarText?.map (·, value)
  | .scalar _ .plain "" => some []
  | _ => none

/-- The limits that a node stands for. -/
def limitsOf? (node : Yaml.Node) : Option Limits := do
  let fields ← fieldsOf? node
  let standard : Limits := {}
  let nesting ← orDefault standard.nesting Yaml.Node.natural? (← field? fields "max_nesting")
  let depth ← orDefault standard.depth Yaml.Node.natural? (← field? fields "max_tree_depth")
  return ⟨nesting, depth⟩

/-! ## Storage -/

/-- How deep the fields of a storage may nest. -/
def storageNesting : Nat := 126

/-- What a field of a storage is, to tell by its key. -/
inductive StorageField
  | path
  | other
  deriving DecidableEq

/-- The field that a key stands for: a name, or its number in order. -/
def storageField? (key : Yaml.Node) : Option StorageField :=
  match key.meaning? with
  | some .text => some (if key.scalarText? = some "path" then .path else .other)
  | some (.natural n) => some (if n = 0 then .path else .other)
  | _ => none

/-- The storage in a directory, of which the fields give the path. -/
def directoryOf? (fields : List (Yaml.Node × Yaml.Node)) : Option Storage := do
  let fields ← fields.mapM fun (key, value) => (storageField? key).map (·, value)
  match fields.filter (·.1 = .path) with
  | [(_, path)] => path.text?.map Storage.directory
  | _ => none

/-- Whether a key is the one for the kind of a storage. -/
def isKind (key : Yaml.Node) : Bool :=
  key.meaning? = some .text && key.scalarText? == some "type"

/-- The storage that a node stands for: a mapping, or a sequence of its kind and its
    fields in order. All that does not tell its kind has to hold values. -/
def storageOf? : Yaml.Node → Option Storage
  | .mapping tag fields =>
    let (kinds, fields) := fields.partition fun (key, _) => isKind key
    if Yaml.Node.hasOwnType tag ∨ !Yaml.Node.areFields storageNesting fields then none
    else
      match kinds.map fun (_, value) => value.scalarText? with
      | [some "memory"] => some .memory
      | [some "file_system"] => directoryOf? fields
      | _ => none
  | .sequence tag (kind :: items) =>
    if Yaml.Node.hasOwnType tag ∨ !Yaml.Node.areValues storageNesting items then none
    else
      match kind.scalarText?, items with
      | some "memory", [] => some .memory
      | some "file_system", [path] => path.text?.map Storage.directory
      | _, _ => none
  | _ => none

/-! ## Settings -/

/-- The settings that a node stands for. -/
def ofNode? (node : Yaml.Node) : Option Settings := do
  let fields ← fieldsOf? node
  let standard : Settings := {}
  let precheck ←
    orDefault standard.precheck Yaml.Node.boolean? (← field? fields "validate_input")
  let limits ← orDefault standard.limits limitsOf? (← field? fields "parser")
  let storage ← orDefault standard.storage storageOf? (← field? fields "storage")
  return ⟨precheck, limits, storage⟩

/-- Reads the text of settings. -/
def read (s : String) : Except SettingsError Settings :=
  match (Yaml.read? s).bind fun node => ofNode? (node.getD .missing) with
  | some settings => .ok settings
  | none => .error .unreadable

end Settings

end Criteria

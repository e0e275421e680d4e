import Criteria.Store.Error
import Criteria.StoredRule
import Criteria.Table

/-!
# Rules in a directory

A store that keeps every rule in a file of its own, named after its id. A rule is
written to a draft first, which then takes the place of the document, so that a
document is never half written. Other files and folders may stand in the directory.

What stands deeper in the directory is held under its path; a name without a slash
is an entry of the directory itself. The entry made last is listed first.

* `Directory.save`, `load`, `delete`, `list`: the store;
* `Directory.saveUnder`: saving where writing, renaming and removing may fail.
-/

namespace Criteria

/-- What stands under a name. -/
inductive Entry
  | file (content : ByteArray)
  | folder

/-- Whether a folder stands under a name. -/
def Entry.isFolder : Entry → Bool
  | file _ => false
  | folder => true

/-- The files and folders of a directory. -/
structure Directory where
  entries : Table Entry

namespace Directory

/-- A directory in which nothing stands. -/
def empty : Directory := ⟨Table.empty⟩

/-! ## Files and folders -/

/-- What stands under a name. -/
def get? (d : Directory) (name : String) : Option Entry := d.entries.get? name

/-- Writes a file, also over one that is there. Fails where a folder stands. -/
def write? (d : Directory) (name : String) (content : ByteArray) : Option Directory :=
  match d.get? name with
  | some .folder => none
  | _ => some ⟨d.entries.insert name (.file content)⟩

/-- Gives a file another name, also that of another file, whose place it takes.
    Fails where a folder stands. -/
def rename? (d : Directory) (old new : String) : Option Directory :=
  match d.get? old, d.get? new with
  | _, some .folder => none
  | some (.file content), _ => some ⟨(d.entries.erase old).insert new (.file content)⟩
  | _, _ => none

/-- Removes a file. Fails where none stands. -/
def remove? (d : Directory) (name : String) : Option Directory :=
  match d.get? name with
  | some (.file _) => some ⟨d.entries.erase name⟩
  | _ => none

/-- The text of a file. -/
def readText (d : Directory) (name : String) : Option (Except StoreError String) :=
  match d.get? name with
  | none => none
  | some .folder => some (.error .inaccessible)
  | some (.file content) =>
    match String.fromUTF8? content with
    | some text => some (.ok text)
    | none => some (.error .inaccessible)

/-- The names of the entries of the directory itself. -/
def names (d : Directory) : List String := d.entries.names.filter fun n => !n.toList.contains '/'

/-- Makes a folder, with those that it stands in. Fails where a file stands. -/
def addFolder? (d : Directory) (path : List String) : Option Directory :=
  let paths := (List.range path.length).map fun i => "/".intercalate (path.take (i + 1))
  paths.foldlM (fun d name =>
    match d.get? name with
    | some (.file _) => none
    | some .folder => some d
    | none => some ⟨d.entries.insert name .folder⟩) d

/-- Writes a file into the directory or into a folder in it, which has to be there. -/
def addFile? (d : Directory) (path : List String) (content : ByteArray) : Option Directory :=
  let folder := "/".intercalate path.dropLast
  if path.length ≤ 1 ∨ (d.get? folder).any Entry.isFolder then
    d.write? ("/".intercalate path) content
  else none

/-! ## The store -/

/-- Whether an id can name a file: it is not empty, and holds nothing but ASCII
    letters and digits, hyphens and underscores. -/
def isFileId (id : String) : Bool :=
  !id.toList.isEmpty && id.toList.all fun c => c.isAlphanum || c == '-' || c == '_'

/-- The name of the document of a rule. -/
def documentName (id : String) : String := id ++ ".json"

/-- The name of the draft of a document. -/
def draftName (id : String) : String := id ++ ".json.tmp"

/-- How many bytes the name of a file may have. -/
def nameLimit : Nat := 255

/-- Whether a name is short enough for a file. One that is not can neither be written
    nor looked up. -/
def fits (name : String) : Bool := name.utf8ByteSize ≤ nameLimit

/-- Whether a name is that of a document: something before `.json`. -/
def isDocumentName (name : String) : Bool :=
  5 < name.toList.length && ".json".toList.isSuffixOf name.toList

/-- What goes wrong in writing a file. -/
inductive WriteFault
  /-- Nothing is written. -/
  | refused
  /-- Only some content gets written. -/
  | cut (content : ByteArray)

/-- What goes wrong in saving a rule. -/
structure Faults where
  write : Option WriteFault := none
  rename : Bool := false
  remove : Bool := false

/-- Removes the draft of a rule that could not be saved, as far as that can be done. -/
def cleanUp (faults : Faults) (d : Directory) (draft : String) : Directory :=
  if faults.remove then d else (d.remove? draft).getD d

/-- Writes the draft of a document: the directory after it, and whether all went well. -/
def writeDraft (faults : Faults) (d : Directory) (draft : String) (content : ByteArray) :
    Bool × Directory :=
  match faults.write with
  | none =>
    match d.write? draft content with
    | some d => (true, d)
    | none => (false, d)
  | some .refused => (false, d)
  | some (.cut content) => (false, (d.write? draft content).getD d)

/-- Saves a rule where some of the steps go wrong. A rule that has no document is
    refused before anything is written. -/
def saveUnder (faults : Faults) (d : Directory) (rule : StoredRule) :
    Except StoreError Unit × Directory :=
  if !isFileId rule.id then (.error (.invalidId rule.id), d)
  else
    match rule.text with
    | .error _ => (.error .malformed, d)
    | .ok text =>
      let draft := draftName rule.id
      if !fits draft then (.error .inaccessible, d)
      else
        -- Until the draft is complete, the document stays as it was.
        match writeDraft faults d draft text.toUTF8 with
        | (false, d) => (.error .inaccessible, cleanUp faults d draft)
        | (true, d) =>
          let renamed := if faults.rename then none else d.rename? draft (documentName rule.id)
          match renamed with
          | none => (.error .inaccessible, cleanUp faults d draft)
          | some d => (.ok (), d)

/-- Saves a rule. -/
def save (d : Directory) (rule : StoredRule) : Except StoreError Unit × Directory :=
  saveUnder {} d rule

/-- The rule in the document with an id. -/
def load (d : Directory) (id : String) : Except StoreError StoredRule :=
  if !isFileId id then .error (.invalidId id)
  else if !fits (documentName id) then .error .inaccessible
  else
    match d.readText (documentName id) with
    | none => .error (.notFound id)
    | some (.error e) => .error e
    | some (.ok text) =>
      match StoredRule.read? text with
      | some rule => .ok rule
      | none => .error .malformed

/-- Removes the document with an id. -/
def delete (d : Directory) (id : String) : Except StoreError Directory :=
  if !isFileId id then .error (.invalidId id)
  else if !fits (documentName id) then .error .inaccessible
  else
    match d.get? (documentName id) with
    | none => .error (.notFound id)
    | some .folder => .error .inaccessible
    | some (.file _) => .ok ⟨d.entries.erase (documentName id)⟩

/-- The rules of the named documents. A document that holds no rule is passed over;
    one that is no text fails. -/
def rulesOf (d : Directory) : List String → Except StoreError (List StoredRule)
  | [] => .ok []
  | name :: names =>
    match d.readText name, rulesOf d names with
    | _, .error e => .error e
    | some (.error e), _ => .error e
    | none, .ok rules => .ok rules
    | some (.ok text), .ok rules =>
      match StoredRule.read? text with
      | some rule => .ok (rule :: rules)
      | none => .ok rules

/-- All rules, in order of creation. -/
def list (d : Directory) : Except StoreError (List StoredRule) :=
  match d.rulesOf (d.names.filter isDocumentName) with
  | .error e => .error e
  | .ok rules => .ok (StoredRule.inOrder rules)

end Directory

end Criteria

import Criteria.Document
import Criteria.Timestamp

/-!
# Stored rules

What is stored of a rule: its tree under an id, with a name, an optional
description, and the times of its creation and of its last change.

* `StoredRule.toJson`, `StoredRule.text`: the JSON document of a rule;
* `StoredRule.read?`: reads the document of a rule;
* `StoredRule.inOrder`: rules in order of creation.
-/

namespace Criteria

/-- A rule in a store. -/
structure StoredRule where
  id : String
  /-- The rule string as it was given, or the text of the tree after an edit. -/
  name : String
  description : Option String
  created : Timestamp
  updated : Timestamp
  tree : Tree
  deriving DecidableEq

namespace StoredRule

/-- Equal in all parts, and in the tree as trees are. -/
def equal (r s : StoredRule) : Bool :=
  r.id == s.id && r.name == s.name && r.description == s.description &&
    r.created == s.created && r.updated == s.updated && r.tree == s.tree

instance : BEq StoredRule := ⟨equal⟩

/-- The JSON value of a rule. A missing description is left out. -/
def toJson (rule : StoredRule) : Except TreeError Json :=
  match Document.ofTree rule.tree with
  | .error e => .error e
  | .ok document =>
    let description := match rule.description with
      | none => []
      | some description => [("description", .string description)]
    .ok <| .object <|
      [("id", .string rule.id), ("rule_name", .string rule.name)] ++ description ++
        [("created_at", .string rule.created.text), ("updated_at", .string rule.updated.text),
          ("ast", document.toJson)]

/-- The text of the document of a rule. -/
def text (rule : StoredRule) : Except TreeError String :=
  match rule.toJson with
  | .error e => .error e
  | .ok json => .ok json.prettyText

/-- The timestamp that a string stands for. -/
def timestamp? : Json.Raw → Option Timestamp
  | .string (some s) => Timestamp.read? s
  | _ => none

/-- The description that a part stands for; it may be missing or `null`. -/
def description? : Option Json.Raw → Option (Option String)
  | none => some none
  | some .null => some none
  | some (.string (some s)) => some (some s)
  | _ => none

/-- The tree that a part stands for, with what nesting is left. -/
def tree? (room : Nat) (raw : Json.Raw) : Option Tree :=
  match Document.ofRaw? room raw with
  | none => none
  | some document => document.toTree.toOption

/-- Reads a rule from JSON as it is written. -/
def ofRaw? (raw : Json.Raw) : Option StoredRule :=
  match raw.parts? (fun name => name)
      ["id", "rule_name", "description", "created_at", "updated_at", "ast"] with
  | some [some (.string (some id)), some (.string (some name)), description, some created,
      some updated, some tree] =>
    match description? description, timestamp? created, timestamp? updated,
      tree? (Json.nestingLimit - 1) tree with
    | some description, some created, some updated, some tree =>
      some ⟨id, name, description, created, updated, tree⟩
    | _, _, _, _ => none
  | _ => none

/-- Reads the document of a rule. -/
def read? (s : String) : Option StoredRule := (Json.Raw.read? s).bind ofRaw?

/-! ## Order -/

/-- Whether a rule comes before another or has the same place: created earlier, or
    at the same time with a smaller id. -/
def precedes (r s : StoredRule) : Bool :=
  r.created.position < s.created.position ||
    (r.created.position == s.created.position && r.id ≤ s.id)

/-- Rules in order of creation; rules with the same place keep their order. -/
def inOrder (rules : List StoredRule) : List StoredRule := rules.mergeSort precedes

end StoredRule

end Criteria

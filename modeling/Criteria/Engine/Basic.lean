import Criteria.Engine.Error
import Criteria.Rule.Postfix
import Criteria.Rule.Precheck
import Criteria.Settings.Basic
import Criteria.Store.Basic
import Criteria.Tree.Edit
import Criteria.Tree.Joining

/-!
# The rule engine

An engine creates, joins, edits, stores and evaluates rules. It is a value, and what
changes its store gives the engine as it is afterwards, also where it fails. The ids
of new rules and the time are given to it.

* `Engine.build`: an engine from its settings;
* `Engine.create`, `combine`, `modifyRoot`, `modifyField`, `delete`: what changes
  the store;
* `Engine.get`, `list`, `evaluateRule`, `evaluateJson`: what does not.
-/

namespace Criteria

/-- A rule engine. -/
structure Engine where
  settings : Settings
  store : Store

/-- What stands at the path of a directory before an engine is built. -/
inductive Site
  | vacant
  | file
  | directory (d : Directory)

/-- The directory at a path, which is made where nothing stands. -/
def Site.open : Site → Except StoreError Directory
  | vacant => .ok Directory.empty
  | file => .error .inaccessible
  | directory d => .ok d

namespace Engine

/-! ## Building -/

/-- Reads settings from a file, of which only the content is given, if there is one. -/
def settingsOf (read : String → Except SettingsError Settings) :
    Option String → Except EngineError Settings
  | none => .error .noSettings
  | some content =>
    match read content with
    | .ok settings => .ok settings
    | .error e => .error (.settings e)

/-- An engine over a given store. -/
def buildOver (settings : Settings) (store : Store) : Except EngineError Engine :=
  match settings.check with
  | .error e => .error (.settings e)
  | .ok () => .ok ⟨settings, store⟩

/-- An engine over the store that its settings ask for, with what stands at the path
    of the directory. -/
def build (settings : Settings) (site : Site) : Except EngineError Engine :=
  match settings.check with
  | .error e => .error (.settings e)
  | .ok () =>
    match settings.storage with
    | .memory => .ok ⟨settings, .memory Table.empty⟩
    | .directory _ =>
      match site.open with
      | .error e => .error (.store e)
      | .ok d => .ok ⟨settings, .directory d⟩

/-! ## Rule strings -/

/-- Reads a rule string, behind the pre-check if that is set. -/
def parse (e : Engine) (text : String) : Except EngineError Tree :=
  if e.settings.precheck && !Precheck.passes text then .error (.rejected text)
  else
    match Tree.read e.settings.limits text with
    | .ok tree => .ok tree
    | .error cause => .error (.read cause)

/-- Reads rule strings up to the first that fails. -/
def parseAll (e : Engine) : List String → Except EngineError (List Tree)
  | [] => .ok []
  | text :: texts =>
    match e.parse text with
    | .error cause => .error cause
    | .ok tree =>
      match e.parseAll texts with
      | .error cause => .error cause
      | .ok trees => .ok (tree :: trees)

/-! ## Changing the store -/

/-- Saves a rule. -/
def save (e : Engine) (rule : StoredRule) : Except EngineError StoredRule × Engine :=
  match e.store.save rule with
  | (.ok (), store) => (.ok rule, { e with store })
  | (.error cause, store) => (.error (.store cause), { e with store })

/-- Reads a rule string and stores its tree under a new id. -/
def create (e : Engine) (text : String) (description : Option String) (id : String)
    (now : Timestamp) : Except EngineError StoredRule × Engine :=
  match e.parse text with
  | .error cause => (.error cause, e)
  | .ok tree => e.save ⟨id, text, description, now, now, tree⟩

/-- Reads rule strings, joins their trees from the left and stores the result under a
    new id, named by its text. -/
def combine (e : Engine) (texts : List String) (ops : List Connective) (id : String)
    (now : Timestamp) : Except EngineError StoredRule × Engine :=
  if texts = [] then (.error (.tree .noTrees), e)
  else if ops.length ≠ texts.length - 1 then
    (.error (.tree (.operatorCount texts.length ops.length)), e)
  else
    match e.parseAll texts with
    | .error cause => (.error cause, e)
    | .ok trees =>
      match Tree.joinAll e.settings.limits.depth trees ops with
      | .error cause => (.error (.tree cause), e)
      | .ok tree => e.save ⟨id, tree.text, none, now, now, tree⟩

/-- Edits the tree of a stored rule. If the tree changes, the rule is named by its
    text and stored; else the store stays as it is. -/
def edit (e : Engine) (id : String) (now : Timestamp) (change : Tree → Tree) :
    Except EngineError StoredRule × Engine :=
  match e.store.load id with
  | .error cause => (.error (.store cause), e)
  | .ok rule =>
    let tree := change rule.tree
    -- Equal trees may differ in the sign of a zero, which is then not stored.
    if tree == rule.tree then (.ok { rule with tree }, e)
    else e.save { rule with tree, name := tree.text, updated := now }

/-- Changes the connective at the root of a stored rule. -/
def modifyRoot (e : Engine) (id : String) (op : Connective) (now : Timestamp) :
    Except EngineError StoredRule × Engine :=
  e.edit id now (Tree.setRoot op)

/-- Changes the value in all conditions on a field of a stored rule. A number that is
    not finite is refused. -/
def modifyField (e : Engine) (id field : String) (value : Value) (now : Timestamp) :
    Except EngineError StoredRule × Engine :=
  match value with
  | .number x =>
    if x.isFinite then e.edit id now (Tree.assign field value)
    else (.error (.tree (.nonFinite x)), e)
  | .text _ => e.edit id now (Tree.assign field value)

/-- Removes a stored rule. -/
def delete (e : Engine) (id : String) : Except EngineError Unit × Engine :=
  match e.store.delete id with
  | (.ok (), store) => (.ok (), { e with store })
  | (.error cause, store) => (.error (.store cause), { e with store })

/-! ## Asking -/

/-- A stored rule. -/
def get (e : Engine) (id : String) : Except EngineError StoredRule :=
  match e.store.load id with
  | .ok rule => .ok rule
  | .error cause => .error (.store cause)

/-- All stored rules, in order of creation. -/
def list (e : Engine) : Except EngineError (List StoredRule) :=
  match e.store.list with
  | .ok rules => .ok rules
  | .error cause => .error (.store cause)

/-- The outcome of a stored rule. -/
def evaluateRule (e : Engine) (id : String) (record : Record) : Except EngineError Outcome :=
  match e.store.load id with
  | .ok rule => .ok (rule.tree.evaluate record)
  | .error cause => .error (.store cause)

/-- The outcome of a documented rule on a JSON record. Only the record can be at
    fault. -/
def evaluateJson (document data : Json) : Except EngineError Outcome :=
  match Record.ofJson data with
  | .ok record => .ok (Tree.evaluateJson document record)
  | .error cause => .error (.record cause)

end Engine

end Criteria

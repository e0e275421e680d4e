import Criteria.Yaml.Layout
import Criteria.Yaml.Node

/-!
# Reading YAML

The tokens of a text build the node of its document, with the collections that are
still open on a stack. A node may be left out in many places: a token that cannot
start a node then tells that none is there. An alias stands for the last node with
its anchor that has started before it.

* `Yaml.read?`: the node of the only document in a text, if there is one.
-/

namespace Criteria

namespace Yaml

/-! ## Open collections -/

/-- The properties in front of a node. -/
structure Properties where
  anchor : Option String := none
  tag : Option String := none
  deriving DecidableEq

/-- What surrounds a node, with its items or fields so far in reverse. -/
inductive Open
  /-- The document, which may have been started by a mark. -/
  | document (marked : Bool)
  | blockSequence (items : List Node)
  /-- A block sequence that is indented no more than the keys around it. -/
  | levelSequence (items : List Node)
  | blockMapping (fields : List (Node × Node))
  | flowSequence (items : List Node)
  | flowMapping (fields : List (Node × Node))

/-- What a node is in the collection around it. -/
inductive Role
  | item
  | key
  | value (key : Node)

/-- A node that is being read, and what surrounds it. -/
structure Frame where
  around : Open
  role : Role
  properties : Properties := {}

namespace Open

/-- Adds an item. In a mapping it is a key without a value. -/
def addItem (node : Node) : Open → Open
  | .document marked => .document marked
  | .blockSequence items => .blockSequence (node :: items)
  | .levelSequence items => .levelSequence (node :: items)
  | .flowSequence items => .flowSequence (node :: items)
  | .blockMapping fields => .blockMapping ((node, .missing) :: fields)
  | .flowMapping fields => .flowMapping ((node, .missing) :: fields)

/-- Adds a field. In a sequence it is a mapping of its own. -/
def addField (key value : Node) : Open → Open
  | .blockMapping fields => .blockMapping ((key, value) :: fields)
  | .flowMapping fields => .flowMapping ((key, value) :: fields)
  | around => around.addItem (.mapping none [(key, value)])

/-- Whether commas part the items. -/
def isFlow : Open → Bool
  | .flowSequence _ | .flowMapping _ => true
  | _ => false

/-- The node of a collection that ends with a token, unless the token ends another
    one. -/
def end? (tag : Option String) : Open → Token → Option Node
  | .blockSequence items, .blockEnd => some (.sequence tag items.reverse)
  | .blockMapping fields, .blockEnd => some (.mapping tag fields.reverse)
  | .flowSequence items, .closeBracket => some (.sequence tag items.reverse)
  | .flowMapping fields, .closeBrace => some (.mapping tag fields.reverse)
  | _, _ => none

/-- Whether a token starts a node, or belongs to the properties of one. -/
def startsNode (around : Open) : Token → Bool
  | .anchor _ | .reference _ | .tag _ | .scalar _ _ => true
  | .blockSequence | .blockMapping | .openBracket | .openBrace => true
  | .entry =>
    match around with
    | .blockMapping _ => true
    | _ => false
  | _ => false

/-- Whether a token tells that no node stands in a place. -/
def leavesOut : Open → Role → Token → Bool
  | .document marked, _, token =>
    marked && (token == .directive || token == .documentStart || token == .documentEnd)
  | .blockSequence _, _, token => token == .entry || token == .blockEnd
  | .levelSequence _, _, token =>
    token == .entry || token == .key || token == .value || token == .blockEnd
  | .blockMapping _, _, token => token == .key || token == .value || token == .blockEnd
  | .flowSequence _, .value _, token => token == .comma || token == .closeBracket
  | .flowSequence _, _, _ => false
  | .flowMapping _, .item, _ => false
  | .flowMapping _, .key, token => token == .value || token == .comma || token == .closeBrace
  | .flowMapping _, .value _, token => token == .comma || token == .closeBrace

end Open

/-! ## Reading tokens -/

/-- How far the tokens have been read. The frames are those of the open collections,
    from the innermost on. -/
inductive Position
  /-- No document has started. -/
  | start
  /-- Directives have been read: the mark that starts the document is due. -/
  | prologue
  /-- A node is due. -/
  | node (frame : Frame) (outer : List Frame)
  /-- An item, a field or the end of a collection is due. -/
  | item (around : Open) (outer : List Frame)
  /-- A comma or the end of a flow collection is due. -/
  | comma (around : Open) (outer : List Frame)
  /-- A key has been read: its value is due. -/
  | value (key : Node) (around : Open) (outer : List Frame)
  /-- The document is complete. -/
  | complete (node : Node)

/-- The nodes with anchors, from the last that started on, as far as they are complete. -/
abbrev Anchors := List (String × Option Node)

/-- Puts a node to its anchor. Of the nodes with one anchor, the last that started is the
    first to be complete. -/
def Anchors.fill (name : String) (node : Node) : Anchors → Anchors
  | [] => []
  | (other, known) :: anchors =>
    if other = name ∧ known.isNone then (name, some node) :: anchors
    else (other, known) :: Anchors.fill name node anchors

/-- What has been read: the position, and the nodes with anchors. -/
structure Progress where
  anchors : Anchors := []
  position : Position := .start

/-- The position behind an item or field. -/
def Position.behind (around : Open) (outer : List Frame) : Position :=
  if around.isFlow then .comma around outer else .item around outer

namespace Progress

/-- Goes on behind a node that is complete. -/
def complete (frame : Frame) (outer : List Frame) (node : Node) (progress : Progress) :
    Progress where
  anchors :=
    match frame.properties.anchor with
    | none => progress.anchors
    | some name => progress.anchors.fill name node
  position :=
    match frame.around, frame.role with
    | .document _, _ => .complete node
    | around, .item => .behind (around.addItem node) outer
    | around, .key => .value node around outer
    | around, .value key => .behind (around.addField key node) outer

/-- Goes on behind a node that is left out, but for its properties. -/
def leaveOut (frame : Frame) (outer : List Frame) (progress : Progress) : Progress :=
  progress.complete frame outer (.scalar frame.properties.tag .plain "")

/-- The progress at another position. -/
def goTo (progress : Progress) (position : Position) : Progress := { progress with position }

/-- Goes on as far as a token tells before it is taken: what was due and does not come
    with it, is left out. -/
def settle (token : Token) (progress : Progress) : Progress :=
  match progress.position with
  | .start =>
    if token = .directive ∨ token = .documentStart then progress
    else progress.goTo (.node ⟨.document false, .item, {}⟩ [])
  | .node frame outer =>
    if frame.around.leavesOut frame.role token ∨
        (frame.properties ≠ {} ∧ !frame.around.startsNode token) then
      progress.leaveOut frame outer
    else progress
  | .item (.levelSequence items) (frame :: outer) =>
    if token = .entry then progress
    else progress.complete frame outer (.sequence frame.properties.tag items.reverse)
  | .item around outer =>
    if around.isFlow ∧ token ≠ .key ∧ (around.end? none token).isNone then
      progress.goTo (.node ⟨around, .item, {}⟩ outer)
    else progress
  | .value key around outer =>
    if token = .value then progress
    else progress.goTo (.behind (around.addField key .missing) outer)
  | _ => progress

/-- Takes a token where a node is due. -/
def takeNode? (frame : Frame) (outer : List Frame) (progress : Progress) :
    Token → Option Progress
  | .anchor name =>
    if frame.properties.anchor.isSome then none
    else
      let properties := { frame.properties with anchor := some name }
      some ⟨(name, none) :: progress.anchors, .node { frame with properties } outer⟩
  | .tag tag =>
    if frame.properties.tag.isSome then none
    else
      let properties := { frame.properties with tag := some tag }
      some (progress.goTo (.node { frame with properties } outer))
  | .reference name =>
    if frame.properties = {} then
      (progress.anchors.lookup name).map fun known =>
        progress.complete frame outer (known.getD .cycle)
    else none
  | .scalar style text =>
    -- A lone exclamation mark says nothing about a scalar.
    let tag := frame.properties.tag.filter (· ≠ "!")
    some (progress.complete frame outer (.scalar tag style text))
  | .blockSequence => some (progress.goTo (.item (.blockSequence []) (frame :: outer)))
  | .blockMapping => some (progress.goTo (.item (.blockMapping []) (frame :: outer)))
  | .openBracket => some (progress.goTo (.item (.flowSequence []) (frame :: outer)))
  | .openBrace => some (progress.goTo (.item (.flowMapping []) (frame :: outer)))
  | .entry =>
    match frame.around with
    | .blockMapping _ =>
      some (progress.goTo (.node ⟨.levelSequence [], .item, {}⟩ (frame :: outer)))
    | _ => none
  | token =>
    -- A key that is left out in a sequence takes the token behind it along.
    match frame.around, frame.role with
    | .flowSequence _, .key =>
      if token = .value ∨ token = .comma ∨ token = .closeBracket then
        some (progress.leaveOut frame outer)
      else none
    | _, _ => none

/-- Ends a collection by a token. -/
def takeEnd? (around : Open) (outer : List Frame) (token : Token) (progress : Progress) :
    Option Progress :=
  match outer with
  | [] => none
  | frame :: outer =>
    (around.end? frame.properties.tag token).map (progress.complete frame outer)

/-- Takes a token where an item, a field or the end of a collection is due. -/
def takeItem? (around : Open) (outer : List Frame) (progress : Progress) :
    Token → Option Progress
  | .entry =>
    match around with
    | .blockSequence _ | .levelSequence _ =>
      some (progress.goTo (.node ⟨around, .item, {}⟩ outer))
    | _ => none
  | .key =>
    match around with
    | .blockMapping _ | .flowMapping _ | .flowSequence _ =>
      some (progress.goTo (.node ⟨around, .key, {}⟩ outer))
    | _ => none
  | token => progress.takeEnd? around outer token

/-- Takes a token, unless it cannot come here. -/
def take? (token : Token) (progress : Progress) : Option Progress :=
  match progress.position with
  | .start | .prologue =>
    match token with
    | .directive => some (progress.goTo .prologue)
    | .documentStart => some (progress.goTo (.node ⟨.document true, .item, {}⟩ []))
    | _ => none
  | .node frame outer => progress.takeNode? frame outer token
  | .item around outer => progress.takeItem? around outer token
  | .comma around outer =>
    if token = .comma then some (progress.goTo (.item around outer))
    else progress.takeEnd? around outer token
  | .value key around outer =>
    if token = .value then some (progress.goTo (.node ⟨around, .value key, {}⟩ outer)) else none
  | .complete _ => if token = .documentEnd then some progress else none

/-- What has been read behind a further token. No token leaves out more than an entry,
    the sequence that ends with it, and the value of the key that this sequence is. -/
def next? (progress : Progress) (token : Token) : Option Progress :=
  (((progress.settle token).settle token).settle token).take? token

/-- The node of the document in a text that ends here. In an empty text there is none;
    a mark alone starts a document with nothing in it. -/
def result? (progress : Progress) : Option (Option Node) :=
  match progress.position with
  | .start => some none
  | .node ⟨.document marked, _, properties⟩ _ =>
    if marked ∨ properties ≠ {} then some (some (.scalar properties.tag .plain "")) else none
  | .complete node => some (some node)
  | _ => none

end Progress

/-- Reads the node of the only document in a text, if there is one. -/
def read? (s : String) : Option (Option Node) :=
  (tokens? s).bind fun tokens => (tokens.foldlM Progress.next? {}).bind Progress.result?

end Yaml

end Criteria
